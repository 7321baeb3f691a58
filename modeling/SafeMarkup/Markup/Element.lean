import SafeMarkup.Text.Basic
/-!
# Element and attribute names

Which characters a name may hold where markup is read, and the two kinds of element that the reader and the printer
treat apart: void elements, which hold nothing, and raw-text elements, whose text is kept as it is written.
-/
namespace SafeMarkup
namespace Element

/-- A tag's name: ASCII letters and digits, hyphen, underscore, colon. -/
def isNameChar (c : Char) : Bool :=
  c.isAlphanum || c == '-' || c == '_' || c == ':'

/-- An attribute's name: whatever does not end it. -/
def isAttributeChar (c : Char) : Bool :=
  !Text.isBlank c && c != '/' && c != '>' && c != '=' && c != '<' && c != '"' && c != '\''

/-- The elements without content and without an end tag. -/
def void : List Text :=
  ["area".toList, "base".toList, "br".toList, "col".toList, "embed".toList, "hr".toList, "img".toList,
    "input".toList, "link".toList, "meta".toList, "param".toList, "source".toList, "track".toList, "wbr".toList]

/-- The elements whose text ends at their own end tag and nowhere else. -/
def rawText : List Text :=
  ["script".toList, "style".toList, "xmp".toList, "iframe".toList, "noembed".toList, "noframes".toList]

/-- Void elements are known by their names in lower case. -/
def isVoid (name : Text) : Bool := void.contains name

/-- Raw-text elements are known by their names in any case. -/
def isRawText (name : Text) : Bool := rawText.any (Text.sameFolded · name)

/-- The element that holds a fragment. -/
def root : Text := "body".toList

end Element
end SafeMarkup
