import SafeMarkup.Text.Basic
import SafeMarkup.Text.Printable
/-!
# Quoted texts

How records and descriptions show a text: in double quotes, with a short form for the common controls, the quote and the
backslash, and the hexadecimal number of any other character that is not printable.
-/
namespace SafeMarkup
namespace Text

def quoteChar (c : Char) : Text :=
  match c with
  | '\x00' => ['\\', '0']
  | '\t' => ['\\', 't']
  | '\n' => ['\\', 'n']
  | '\r' => ['\\', 'r']
  | '"' => ['\\', '"']
  | '\\' => ['\\', '\\']
  | c => if isPrintable c then [c] else ['\\', 'u', '{'] ++ Nat.toDigits 16 c.toNat ++ ['}']

def quoted (t : Text) : Text := '"' :: t.flatMap quoteChar ++ ['"']

/-- The items in square brackets, with commas between them. -/
def bracketed (items : List Text) : Text := '[' :: List.intercalate ", ".toList items ++ [']']

def ofBool (b : Bool) : Text := if b then "true".toList else "false".toList

end Text
end SafeMarkup
