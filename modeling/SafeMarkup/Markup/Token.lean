import SafeMarkup.Markup.Attribute
/-!
# Tokens

What markup is read into, one piece after the other.  The names in tokens are of a type `ν`: texts where tokens are
read and where a tree is built, numbers where names are kept in a table of their own.
-/
namespace SafeMarkup

/-- A piece of markup, with tag and attribute names of type `ν`. -/
inductive Token (ν : Type) where
  | doctype (content : Text)
  | startTag (name : ν) (attributes : List (Attribute ν)) (selfClosing : Bool)
  | endTag (name : ν)
  | comment (content : Text)
  | text (content : Text)
  deriving DecidableEq

namespace Token

/-- The names in a token, as they are written from left to right. -/
def names {ν : Type} : Token ν → List ν
  | .startTag name as _ => name :: as.map (·.name)
  | .endTag name => [name]
  | _ => []

/-- The token with its names put through `f`. -/
def map {ν μ : Type} (f : ν → μ) : Token ν → Token μ
  | .doctype t => .doctype t
  | .startTag name as selfClosing => .startTag (f name) (as.map fun a => ⟨f a.name, a.value⟩) selfClosing
  | .endTag name => .endTag (f name)
  | .comment t => .comment t
  | .text t => .text t

/-- The text of a text token. -/
def content {ν : Type} : Token ν → Text
  | .text t => t
  | _ => []

end Token
end SafeMarkup
