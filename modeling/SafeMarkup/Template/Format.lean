import SafeMarkup.Text.Basic
/-!
# Format strings

A template in one string: `{}` is a slot, a doubled brace stands for a brace, and any other brace for itself.
-/
namespace SafeMarkup
namespace Template

/-- The segments of a format string. -/
def split : Text → List Text
  | '{' :: '{' :: t => (split t).modifyHead ('{' :: ·)
  | '}' :: '}' :: t => (split t).modifyHead ('}' :: ·)
  | '{' :: '}' :: t => [] :: split t
  | c :: t => (split t).modifyHead (c :: ·)
  | [] => [[]]

/-- A segment with its braces doubled. -/
def double (t : Text) : Text := t.flatMap fun c => if c == '{' || c == '}' then [c, c] else [c]

/-- The format string of some segments. -/
def ofSegments (segments : List Text) : Text := List.intercalate ['{', '}'] (segments.map double)

end Template
end SafeMarkup
