import SafeMarkup.Text.Basic
/-!
# Character references

A reference is `&`, a body of at most eight characters and `;`.  The body is one of six names or the number of a
Unicode scalar value; anything else stays as it is written.  Three escapes write the characters that markup would read
otherwise: one for running text, one for a quoted attribute value and one for text from outside.
-/
namespace SafeMarkup
namespace Reference

/-- The characters that have a name. -/
def named : List (Text × Char) :=
  [(['a', 'm', 'p'], '&'), (['l', 't'], '<'), (['g', 't'], '>'), (['q', 'u', 'o', 't'], '"'),
    (['a', 'p', 'o', 's'], '\''), (['n', 'b', 's', 'p'], '\u00a0')]

/-- The longest body, as in `#x10FFFF` or `#1114111`. -/
def bodyLimit : Nat := 8

def isHexDigit (c : Char) : Bool :=
  c.isDigit || ('a' ≤ c && c ≤ 'f') || ('A' ≤ c && c ≤ 'F')

/-- The character whose number is `n`, unless `n` is a surrogate or too large. -/
def scalar? (n : Nat) : Option Char :=
  if n.isValidChar then some (Char.ofNat n) else none

/-- The number written by a non-empty run of digits, in one of the two radixes. -/
def number? (radix : Nat) (isDigit : Char → Bool) (digits : Text) : Option Char :=
  if !digits.isEmpty && digits.all isDigit then scalar? (Text.digitsValue radix digits) else none

/-- The character that a body stands for. -/
def ofBody? : Text → Option Char
  | '#' :: 'x' :: digits => number? 16 isHexDigit digits
  | '#' :: 'X' :: digits => number? 16 isHexDigit digits
  | '#' :: digits => number? 10 Char.isDigit digits
  | body => named.lookup body

/-- The reference that starts a text whose `&` has been read: its character and what follows its `;`. -/
def read? (t : Text) : Option (Char × Text) :=
  let body := (t.take bodyLimit).takeWhile (· != ';')
  match t.drop body.length with
  | ';' :: rest => (ofBody? body).map (·, rest)
  | _ => none

theorem read?_length {t rest : Text} {c : Char} (h : read? t = some (c, rest)) : rest.length < t.length := by
  unfold read? at h
  simp only at h
  split at h
  · rename_i r hr
    obtain ⟨d, -, hd⟩ := Option.map_eq_some_iff.1 h
    obtain ⟨-, rfl⟩ := Prod.mk.inj hd
    have := congrArg List.length hr
    simp only [List.length_drop, List.length_cons] at this
    omega
  · cases h

/-- The text with every reference replaced by its character. -/
def decode : Text → Text
  | [] => []
  | c :: t =>
    if c == '&' then
      match _h : read? t with
      | some (d, rest) => d :: decode rest
      | none => c :: decode t
    else c :: decode t
termination_by t => t.length
decreasing_by
  · have := read?_length _h
    simp only [List.length_cons]
    omega
  · simp
  · simp

theorem decode_cons_of_ne {c : Char} (h : c ≠ '&') (t : Text) : decode (c :: t) = c :: decode t := by
  rw [decode, if_neg (by simpa using h)]

theorem decode_of_read? {t rest : Text} {d : Char} (h : read? t = some (d, rest)) :
    decode ('&' :: t) = d :: decode rest := by
  rw [decode, if_pos (beq_self_eq_true _)]
  split
  · rename_i he
    rw [h] at he
    cases he
    rfl
  · rename_i he
    rw [h] at he
    cases he

theorem decode_of_read?_none {t : Text} (h : read? t = none) : decode ('&' :: t) = '&' :: decode t := by
  rw [decode, if_pos (beq_self_eq_true _)]
  split
  · rename_i he
    rw [h] at he
    cases he
  · rfl

/-! ## Escapes -/

/-- Running text: `&`, `<`, `>` and the no-break space. -/
def inText (c : Char) : Text :=
  match c with
  | '&' => ['&', 'a', 'm', 'p', ';']
  | '<' => ['&', 'l', 't', ';']
  | '>' => ['&', 'g', 't', ';']
  | '\u00a0' => ['&', 'n', 'b', 's', 'p', ';']
  | c => [c]

/-- A value in double quotes: as in running text, and the quote. -/
def inValue (c : Char) : Text :=
  match c with
  | '"' => ['&', 'q', 'u', 'o', 't', ';']
  | c => inText c

/-- Text from outside: whatever could begin or end markup, a value or a reference, and the null character. -/
def anywhere (c : Char) : Text :=
  match c with
  | '&' => ['&', 'a', 'm', 'p', ';']
  | '<' => ['&', 'l', 't', ';']
  | '>' => ['&', 'g', 't', ';']
  | '"' => ['&', 'q', 'u', 'o', 't', ';']
  | '\'' => ['&', '#', '3', '9', ';']
  | '\x00' => ['&', '#', '0', ';']
  | c => [c]

end Reference

def escapeText (t : Text) : Text := t.flatMap Reference.inText

def escapeValue (t : Text) : Text := t.flatMap Reference.inValue

end SafeMarkup
