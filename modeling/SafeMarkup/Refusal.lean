import SafeMarkup.Text.Basic
/-!
# Refusals

Why trusted markup was not made, or a configuration not changed.
-/
namespace SafeMarkup

inductive Refusal where
  /-- No sanitizer is registered under the id. -/
  | unknownSanitizer (id : Text)
  /-- The configuration lets no unchecked markup through. -/
  | gateClosed
  /-- The configuration is frozen. -/
  | configurationFrozen
  /-- A text stands where markup is inserted. -/
  | untrustedMarkup (index : Nat)
  /-- There is not one more segment than there are values. -/
  | templateShape (segments values : Nat)
  deriving DecidableEq

namespace Refusal

def message : Refusal → Text
  | unknownSanitizer id => "unknown sanitizer: ".toList ++ id
  | gateClosed => "unsafely_create is not allowed by the configuration".toList
  | configurationFrozen => "configuration is frozen".toList
  | untrustedMarkup i =>
    "interpolation ".toList ++ Text.decimal i ++ " is inserted as markup but is not TrustedHtml".toList
  | templateShape s v =>
    "template has ".toList ++ Text.decimal s ++ " literal segments for ".toList ++ Text.decimal v
      ++ " interpolations".toList

end Refusal
end SafeMarkup
