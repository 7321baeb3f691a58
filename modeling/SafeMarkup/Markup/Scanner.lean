import SafeMarkup.Markup.NameIndex
import SafeMarkup.Markup.TokenStream
import SafeMarkup.Text.Input
/-!
# Scanning markup by its bytes

What markup is read into, found by going over the bytes of a text: places where a token begins or ends are places of
ASCII bytes, and only there the text is cut.  Names are numbered as they come.

Every byte that is read, every cut and every loop may fail (`Input`); then the whole result is `none`, as it is for a
number that is not in the index of the names.
-/
namespace SafeMarkup

/-! ## References -/

namespace Reference

/-- The reference whose `&` stands before place `k`: its character and the place behind its `;`. -/
def scan? (s : Input) (k : Nat) : Option (Option (Char × Nat)) := do
  match ← s.seek? ';' k (min s.size (k + (bodyLimit + 1))) with
  | none => return none
  | some stop => return (ofBody? (← s.slice? k stop)).map (·, stop + 1)

/-- A text as far as it has been decoded. -/
structure Decoder where
  place : Nat
  out : Text

/-- Decodes up to the next `&` and, if there is one, that `&` or the reference that it begins. -/
def Decoder.pass? (s : Input) (d : Decoder) : Option (Pass Decoder Text) := do
  match ← s.seek? '&' d.place s.size with
  | none => return .done (d.out ++ (← s.from? d.place))
  | some amp =>
    let before ← s.slice? d.place amp
    match ← scan? s (amp + 1) with
    | some (c, behind) => return .again ⟨behind, d.out ++ before ++ [c]⟩
    | none => return .again ⟨amp + 1, d.out ++ before ++ ['&']⟩

/-- The text with every reference replaced by its character. -/
def decode? (t : Text) : Option Text :=
  let s := Input.ofText t
  loop? Decoder.place s.size (Decoder.pass? s) ⟨0, []⟩

end Reference

/-! ## Tags -/

/-- A tag as far as it has been scanned behind its name; the names of all tags so far are in its index. -/
structure TagScanner where
  place : Nat
  attributes : List (Attribute UInt32)
  slashed : Bool
  names : NameIndex

namespace TagScanner

/-- The tag with one more attribute; of two with one name the first stays. -/
def add (g : TagScanner) (name : Text) (value : Option Text) : TagScanner :=
  let i := g.names.intern name
  { g with
    attributes := if g.attributes.any (·.name == i.1) then g.attributes else g.attributes ++ [⟨i.1, value⟩]
    names := i.2 }

/-- A value whose first quote stands at place `k`, and the place behind its second quote. -/
def quoted? (s : Input) (k : Nat) : Option (Text × Nat) := do
  let quote ← s.byte? k
  let stop ← s.skip? (· != quote) s.size (k + 1)
  let raw ← s.slice? (k + 1) stop
  return (← Reference.decode? raw, if stop < s.size then stop + 1 else stop)

/-- Whether a value without quotes goes on at place `k`. -/
def isBareAt? (s : Input) (k : Nat) : Option Bool := do
  if k < s.size then
    let c ← s.byte? k
    if Text.isBlank c || c == '>' then return false
    else if c == '/' then return !(← s.isAt? (· == '>') s.size (k + 1))
    else return true
  else return false

/-- A value without quotes that begins at place `k`, and the place where it ends. -/
def bare? (s : Input) (k : Nat) : Option (Text × Nat) := do
  let stop ← advance? s.size (isBareAt? s) k
  return (← Reference.decode? (← s.slice? k stop), stop)

/-- A value that begins at place `k`, and the place behind it. -/
def written? (s : Input) (k : Nat) : Option (Text × Nat) := do
  if ← s.isAt? (fun c => c == '"' || c == '\'') s.size k then quoted? s k else bare? s k

/-- The value of an attribute whose name ends at place `k`, if it has one, and the place where the attribute ends. -/
def value? (s : Input) (k : Nat) : Option (Option Text × Nat) := do
  let k ← s.skip? Text.isBlank s.size k
  if ← s.isAt? (· == '=') s.size k then
    let v ← written? s (← s.skip? Text.isBlank s.size (k + 1))
    return (some v.1, v.2)
  else return (none, k)

/-- Scans the attribute that begins at place `k`, or one byte that begins none. -/
def attribute? (s : Input) (g : TagScanner) (k : Nat) : Option (Pass TagScanner TagScanner) := do
  let stop ← s.skip? Element.isAttributeChar s.size k
  if stop = k then return .again { g with place := k + 1 }
  else
    let name ← s.slice? k stop
    let v ← value? s stop
    return .again { g.add name v.1 with place := v.2 }

/-- Scans the next attribute, the end of the tag, or one byte that belongs to neither. -/
def pass? (s : Input) (g : TagScanner) : Option (Pass TagScanner TagScanner) := do
  let k ← s.skip? Text.isBlank s.size g.place
  if k < s.size then
    let c ← s.byte? k
    if c == '>' then return .done { g with place := k + 1 }
    else if c == '/' then
      if ← s.isAt? (· == '>') s.size (k + 1) then return .done { g with place := k + 2, slashed := true }
      else return .again { g with place := k + 1 }
    else attribute? s g k
  else return .done { g with place := k }

/-- The tag whose name ends at place `k`. -/
def scan? (s : Input) (names : NameIndex) (k : Nat) : Option TagScanner :=
  loop? place s.size (pass? s) ⟨k, [], false, names⟩

end TagScanner

/-! ## Ends of raw text -/

namespace ClosingTag

/-- Where the end tag with the bytes `closing` that may begin at a `<` ends.  Only blanks may stand before its `>`. -/
def stop? (s : Input) (closing : Text) (k : Nat) : Option (Option Nat) := do
  if (← s.byte? (k + 1)) == '/' then
    if ← s.startsFolded? closing k then
      let stop ← s.skip? Text.isBlank s.size (k + closing.length)
      return if ← s.isAt? (· == '>') s.size stop then some (stop + 1) else none
    else return none
  else return none

/-- Tries the next `<`. -/
def pass? (s : Input) (closing : Text) (k : Nat) : Option (Pass Nat (Option (Nat × Nat))) := do
  if k + closing.length ≤ s.size then
    match ← s.seek? '<' k s.size with
    | none => return .done none
    | some k =>
      if s.size < k + closing.length then return .done none
      else
        match ← stop? s closing k with
        | some stop => return .done (some (k, stop))
        | none => return .again (k + 1)
  else return .done none

/-- Where the first end tag with the bytes `closing` from place `k` on begins and ends. -/
def scan? (s : Input) (closing : Text) (k : Nat) : Option (Option (Nat × Nat)) := do
  guard (['<', '/'].isPrefixOf closing ∧ 3 ≤ closing.length ∧ closing.all (·.toNat < 128))
  loop? id s.size (pass? s closing) k

end ClosingTag

/-! ## Tokens -/

/-- A text as far as it has been scanned. -/
structure Scanner where
  place : Nat
  tokens : Array (Token UInt32)
  names : NameIndex

namespace Scanner

def emit (c : Scanner) (tok : Token UInt32) : Scanner := { c with tokens := c.tokens.push tok }

/-- The text as a token, unless there is none. -/
def emitText (c : Scanner) (t : Text) : Scanner := if t.isEmpty then c else c.emit (.text t)

def goTo (c : Scanner) (place : Nat) : Scanner := { c with place }

/-- Whether the `<` at place `k` begins markup. -/
def opensMarkup? (s : Input) (k : Nat) : Option Bool := do
  guard ((← s.byte? k) == '<')
  return (s.byte? (k + 1)).any fun c => c.isAlpha || c == '!' || c == '?' ||
    (c == '/' && (s.byte? (k + 2)).any fun c => c.isAlpha || c == '>')

/-- Tries the next `<` as the end of a run of text. -/
def runPass? (s : Input) (k : Nat) : Option (Pass Nat Nat) := do
  match ← s.seek? '<' (min k s.size) s.size with
  | none => return .done s.size
  | some k => return if ← opensMarkup? s k then .done k else .again (k + 1)

/-- The first place from `k` on at which markup begins. -/
def runStop? (s : Input) (k : Nat) : Option Nat := loop? id s.size (runPass? s) k

def run? (s : Input) (c : Scanner) : Option (Pass Scanner Scanner) := do
  let stop ← runStop? s (c.place + 1)
  return .again ((c.emitText (← Reference.decode? (← s.slice? c.place stop))).goTo stop)

def comment? (s : Input) (c : Scanner) : Option (Pass Scanner Scanner) := do
  let start := c.place + 4
  let rest ← s.from? start
  match Text.findByte? ['-', '-', '>'] rest with
  | some k => return .again ((c.emit (.comment (← s.slice? start (start + k)))).goTo (start + k + 3))
  | none => return .done (c.emit (.comment rest))

def doctype? (s : Input) (c : Scanner) : Option (Pass Scanner Scanner) := do
  let rest ← s.from? (c.place + 2)
  match Text.findByte? ['>'] rest with
  | some k => return .again ((c.emit (.doctype (Text.trim (← Text.slice? 0 k rest)))).goTo (c.place + 2 + k + 1))
  | none => return .done c

def bogus? (s : Input) (c : Scanner) : Option (Pass Scanner Scanner) := do
  let start := c.place + if (← s.byte? (c.place + 1)) == '!' then 2 else 1
  let stop := (← s.seek? '>' start s.size).getD s.size
  return .again ((c.emit (.comment (← s.slice? start stop))).goTo (min (stop + 1) s.size))

/-- The end tag whose name stands between two places, unless there is no name. -/
def emitEndTag? (s : Input) (c : Scanner) (start stop : Nat) : Option Scanner := do
  if start < stop then
    let i := c.names.intern (← s.slice? start stop)
    return { c with tokens := c.tokens.push (.endTag i.1), names := i.2 }
  else return c

def endTag? (s : Input) (c : Scanner) : Option (Pass Scanner Scanner) := do
  let nameStop ← s.skip? Element.isNameChar s.size (c.place + 2)
  let c ← emitEndTag? s c (c.place + 2) nameStop
  let stop ← s.skip? (· != '>') s.size nameStop
  return .again (c.goTo (if stop < s.size then stop + 1 else stop))

/-- The text of a raw-text element from the place of the scanner on, and the element's end tag. -/
def rawText? (s : Input) (i : UInt32) (name : Text) (c : Scanner) : Option (Pass Scanner Scanner) := do
  match ← ClosingTag.scan? s ('<' :: '/' :: name) c.place with
  | some (start, stop) => return .again (((c.emitText (← s.slice? c.place start)).emit (.endTag i)).goTo stop)
  | none => return .done ((c.emitText (← s.from? c.place)).emit (.endTag i))

def startTag? (s : Input) (c : Scanner) : Option (Pass Scanner Scanner) := do
  let start := c.place + 1
  let nameStop ← s.skip? Element.isNameChar s.size start
  guard (start < nameStop)
  let i := c.names.intern (← s.slice? start nameStop)
  let g ← TagScanner.scan? s i.2 nameStop
  let name ← g.names.get? i.1
  let selfClosing := g.slashed || Element.isVoid name
  let c : Scanner := ⟨g.place, c.tokens.push (.startTag i.1 g.attributes selfClosing), g.names⟩
  if !selfClosing && Element.isRawText name then rawText? s i.1 name c else return .again c

/-- What begins at a `<` that begins markup. -/
def markup? (s : Input) (c : Scanner) : Option (Pass Scanner Scanner) := do
  if ['<', '!', '-', '-'].isPrefixOf (← s.from? c.place) then comment? s c
  else if ← s.startsFolded? ['<', '!', 'd', 'o', 'c', 't', 'y', 'p', 'e'] c.place then doctype? s c
  else
    let mark ← s.byte? (c.place + 1)
    if mark == '!' || mark == '?' then bogus? s c
    else if mark == '/' then endTag? s c
    else startTag? s c

/-- Scans the next span of the text. -/
def pass? (s : Input) (c : Scanner) : Option (Pass Scanner Scanner) := do
  if c.place < s.size then
    let markup ← if (← s.byte? c.place) == '<' then opensMarkup? s c.place else pure false
    if markup then markup? s c else run? s c
  else return .done c

/-- The text as it is scanned to its end. -/
def scan? (t : Text) : Option Scanner :=
  let s := Input.ofText t
  loop? place s.size (pass? s) ⟨0, #[], .empty⟩

/-- The tokens with the table that their names stand in. -/
def stream (c : Scanner) : TokenStream := ⟨c.tokens.toList.map (Token.map UInt32.toNat), c.names.table⟩

end Scanner
end SafeMarkup
