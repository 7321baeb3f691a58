import SafeMarkup.Markup.Reference
import SafeMarkup.Text.Quoted
import SafeMarkup.Decimal.Shortest
/-!
# Trusted markup and what is put into templates

Trusted markup may be put into a document as it is.  Any text becomes trusted by being escaped, which leaves nothing of
it that could be read as markup.  An interpolation is trusted markup, or a text that must never be read as markup.
-/
namespace SafeMarkup

/-- Markup that is safe as it is. -/
structure Trusted where
  content : Text
  deriving DecidableEq

namespace Trusted

/-- A text from outside as markup that shows it. -/
def escape (raw : Text) : Trusted := ⟨raw.flatMap Reference.anywhere⟩

def describe (t : Trusted) : Text := "TrustedHtml(".toList ++ Text.quoted t.content ++ [')']

end Trusted

/-- A value for a slot of a template. -/
inductive Interpolation where
  | trusted (markup : Trusted)
  | text (t : Text)
  deriving DecidableEq

namespace Interpolation

/-- The value as a text: of trusted markup, the markup itself. -/
def asText : Interpolation → Text
  | trusted m => m.content
  | text t => t

def trusted? : Interpolation → Option Trusted
  | trusted m => some m
  | text _ => none

def ofChar (c : Char) : Interpolation := text [c]

def ofBool (b : Bool) : Interpolation := text (Text.ofBool b)

def ofInt (n : Int) : Interpolation :=
  text (Decimal.signed (n < 0) (Text.decimal n.natAbs))

/-- A word of a floating-point format. -/
def ofWord (f : Decimal.Format) (bits : Nat) : Interpolation := text (f.write bits)

end Interpolation
end SafeMarkup
