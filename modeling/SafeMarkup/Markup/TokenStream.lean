import SafeMarkup.Markup.NameTable
import SafeMarkup.Markup.Span
/-!
# Token streams

Tokens whose names are numbers, with the table that the numbers stand in.  Names are numbered as they come: a tag's
name first, its attributes after it.
-/
namespace SafeMarkup

structure TokenStream where
  tokens : List (Token Nat)
  table : NameTable

namespace TokenStream

def numberAttributes (table : NameTable) : List (Attribute Text) → List (Attribute Nat) × NameTable
  | [] => ([], table)
  | a :: as =>
    let i := table.insert a.name
    let r := numberAttributes i.2 as
    (⟨i.1, a.value⟩ :: r.1, r.2)

def numberToken (table : NameTable) : Token Text → Token Nat × NameTable
  | .doctype t => (.doctype t, table)
  | .comment t => (.comment t, table)
  | .text t => (.text t, table)
  | .endTag name =>
    let i := table.insert name
    (.endTag i.1, i.2)
  | .startTag name as selfClosing =>
    let i := table.insert name
    let r := numberAttributes i.2 as
    (.startTag i.1 r.1 selfClosing, r.2)

/-- The stream of some tokens, whose names continue the table. -/
def numberFrom (table : NameTable) : List (Token Text) → TokenStream
  | [] => ⟨[], table⟩
  | t :: ts =>
    let i := numberToken table t
    let r := numberFrom i.2 ts
    ⟨i.1 :: r.tokens, r.table⟩

def ofTokens (ts : List (Token Text)) : TokenStream := numberFrom .empty ts

/-- The stream of a text. -/
def read (t : Text) : TokenStream := ofTokens (SafeMarkup.tokens t)

def attribute? (table : NameTable) (a : Attribute Nat) : Option (Attribute Text) :=
  (table.get? a.name).map (⟨·, a.value⟩)

def token? (table : NameTable) : Token Nat → Option (Token Text)
  | .doctype t => some (.doctype t)
  | .comment t => some (.comment t)
  | .text t => some (.text t)
  | .endTag i => (table.get? i).map .endTag
  | .startTag i as selfClosing => do
    let name ← table.get? i
    let as ← as.mapM (attribute? table)
    return .startTag name as selfClosing

/-- The tokens with their names again, if the table has them all. -/
def toTokens? (s : TokenStream) : Option (List (Token Text)) := s.tokens.mapM (token? s.table)

end TokenStream
end SafeMarkup
