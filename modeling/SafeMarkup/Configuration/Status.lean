import SafeMarkup.Text.Quoted
/-!
# The visible state of a configuration

Which sanitizers it knows, whether it lets unchecked markup through, and whether it can still be changed.
-/
namespace SafeMarkup

structure Status where
  /-- The ids of the sanitizers, in order. -/
  ids : List Text
  allowsUnsafe : Bool
  frozen : Bool
  deriving DecidableEq

namespace Status

/-- The stage of a configuration's life. -/
def lifecycle (s : Status) : Text := if s.frozen then "Frozen".toList else "Open".toList

def describe (s : Status) : Text :=
  "Configuration \x7b sanitizers: ".toList ++ Text.bracketed (s.ids.map Text.quoted)
    ++ ", allow_unsafely_create: ".toList ++ Text.ofBool s.allowsUnsafe
    ++ ", lifecycle: ".toList ++ s.lifecycle ++ " \x7d".toList

end Status
end SafeMarkup
