import SafeMarkup.Template.Basic
/-!
# Nested templates

Values of a template may be templates themselves.  They are rendered first, from left to right; the first refusal is
the refusal of the whole.
-/
namespace SafeMarkup
namespace Template

inductive Nested where
  | value (v : Interpolation)
  | template (nonce : Text) (segments : List Text) (arguments : List Nested)

namespace Nested

mutual

/-- What is put into a slot: a rendered template is trusted. -/
def eval : Nested → Except Refusal Interpolation
  | value v => return v
  | template nonce segments arguments => do
    let values ← evalAll arguments
    let m ← render nonce values segments
    return .trusted m

def evalAll : List Nested → Except Refusal (List Interpolation)
  | [] => return []
  | a :: as => do
    let v ← eval a
    let vs ← evalAll as
    return v :: vs

end

end Nested
end Template
end SafeMarkup
