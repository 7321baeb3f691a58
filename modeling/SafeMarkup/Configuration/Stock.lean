import SafeMarkup.Configuration.Routine
import SafeMarkup.Markup.Node.Written
/-!
# Stock sanitizers

Ready-made sanitizers: those that work on the text alone, and those that use the configuration they are called from.
-/
namespace SafeMarkup
namespace Stock

def identity : Sanitizer := .done

/-- The text as markup that shows it. -/
def escape : Sanitizer := fun raw => .done (Trusted.escape raw).content

/-- The text with its ASCII letters in upper case. -/
def upper : Sanitizer := fun raw => .done (raw.map Char.toUpper)

def reverse : Sanitizer := fun raw => .done raw.reverse

/-- The markup as the printer writes it. -/
def normalize : Sanitizer := fun raw => .note (Event.parsing raw) (.done (Node.parse raw).inner)

/-- The text of the markup. -/
def strip : Sanitizer := fun raw => .note (Event.parsing raw) (.done (escapeText (Node.parse raw).textContent))

def const (markup : Text) : Sanitizer := fun _ => .done markup

def replace (p r : Text) : Sanitizer := fun raw => .done (Text.replaceAll p r raw)

/-- An answer in words: a refusal is told after an exclamation mark. -/
def told (raw : Text) : Answer → Text
  | .done => raw
  | .refused why => '!' :: why.message
  | .flag b => Text.ofBool b
  | .ids ids => List.intercalate [','] ids
  | .markup m => '[' :: m.content ++ [']']

/-- The text and the state of the configuration. -/
def probe : Sanitizer := fun raw =>
  .ask .isFrozen fun frozen => .ask .allowsUnsafe fun allowed => .ask .ids fun ids =>
    .done (raw ++ '|' :: told raw frozen ++ '|' :: told raw allowed ++ '|' :: told raw ids)

/-- Freezes the configuration. -/
def freeze : Sanitizer := fun raw => .ask .freeze fun _ => .done raw

/-- Leaves the work to another sanitizer. -/
def delegate (id : Option Text) : Sanitizer := fun raw => .ask (.sanitize id raw) fun a => .done (told raw a)

/-- Registers a constant sanitizer. -/
def register (id markup : Text) : Sanitizer := fun raw =>
  .ask (.register id (const markup)) fun a => .done (told raw a)

end Stock
end SafeMarkup
