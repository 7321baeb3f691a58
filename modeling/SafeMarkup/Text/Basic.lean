/-!
# Texts

A text is the list of its characters.  Markup is ASCII in all that decides how it is read, so letters are compared
without case over ASCII alone, and the blanks between attributes are the five ASCII ones; the ends of a doctype are
trimmed by the wider White_Space property.  `cutAt` splits a text where a condition on what follows first holds:
comments, raw text and runs of text all end in this way.
-/
namespace SafeMarkup

/-- A text is the list of its characters. -/
abbrev Text := List Char

namespace Text

/-- Space, tab, line feed, form feed, carriage return. -/
def isBlank (c : Char) : Bool :=
  c == ' ' || c == '\t' || c == '\n' || c == '\x0c' || c == '\r'

/-- The White_Space property. -/
def isWhiteSpace (c : Char) : Bool :=
  let n := c.toNat
  (0x09 ≤ n && n ≤ 0x0d) || n == 0x20 || n == 0x85 || n == 0xa0 || n == 0x1680 || (0x2000 ≤ n && n ≤ 0x200a)
    || n == 0x2028 || n == 0x2029 || n == 0x202f || n == 0x205f || n == 0x3000

def skipBlanks (t : Text) : Text := t.dropWhile isBlank

/-- The text without the white space at its two ends. -/
def trim (t : Text) : Text :=
  ((t.dropWhile isWhiteSpace).reverse.dropWhile isWhiteSpace).reverse

/-- The text with its ASCII letters in lower case. -/
def fold (t : Text) : Text := t.map Char.toLower

/-- Equality up to the case of ASCII letters. -/
def sameFolded (a b : Text) : Bool := fold a == fold b

/-- What follows `p` at the start of a text, the case of ASCII letters set aside. -/
def afterFolded? : Text → Text → Option Text
  | [], t => some t
  | _ :: _, [] => none
  | a :: p, c :: t => if a.toLower == c.toLower then afterFolded? p t else none

/-- The text before its first suffix that satisfies `p`, and that suffix; all of it and nothing when none does. -/
def cutAt (p : Text → Bool) : Text → Text × Text
  | [] => ([], [])
  | c :: t =>
    if p (c :: t) then ([], c :: t)
    else
      let r := cutAt p t
      (c :: r.1, r.2)

/-- The decimal digits of a number. -/
def decimal (n : Nat) : Text := Nat.toDigits 10 n

/-- The value of a run of ASCII digits, hexadecimal ones included. -/
def digitsValue (radix : Nat) (t : Text) : Nat :=
  t.foldl (fun n c => radix * n + digitValue c) 0
where
  digitValue (c : Char) : Nat :=
    if c.isDigit then c.toNat - '0'.toNat else c.toLower.toNat - 'a'.toNat + 10

/-- How many bytes a text takes in UTF-8. -/
def byteLength : Text → Nat
  | [] => 0
  | c :: t => c.utf8Size + byteLength t

/-! ## Cutting loses nothing -/

theorem cutAt_append (p : Text → Bool) : ∀ t : Text, (cutAt p t).1 ++ (cutAt p t).2 = t
  | [] => rfl
  | c :: t => by
    unfold cutAt
    split
    · rfl
    · simp [cutAt_append p t]

theorem cutAt_length (p : Text → Bool) (t : Text) : (cutAt p t).2.length ≤ t.length := by
  have h := congrArg List.length (cutAt_append p t)
  simp only [List.length_append] at h
  omega

/-- The second part is empty or satisfies the condition. -/
theorem cutAt_snd (p : Text → Bool) : ∀ t : Text, (cutAt p t).2 = [] ∨ p (cutAt p t).2 = true
  | [] => .inl rfl
  | c :: t => by
    unfold cutAt
    split
    · exact .inr (by assumption)
    · exact cutAt_snd p t

theorem afterFolded?_length : ∀ {p t r : Text}, afterFolded? p t = some r → t.length = p.length + r.length
  | [], t, r, h => by simp_all [afterFolded?]
  | _ :: _, [], _, h => by simp [afterFolded?] at h
  | a :: p, c :: t, r, h => by
    unfold afterFolded? at h
    split at h
    · simp only [List.length_cons, afterFolded?_length h]
      omega
    · cases h

-- Core proves nothing about `isPrefixOf?`; to end the recursions on what it leaves, the length is enough.
theorem isPrefixOf?_length : ∀ {p t r : Text}, p.isPrefixOf? t = some r → t.length = p.length + r.length
  | [], t, r, h => by
    obtain rfl : t = r := Option.some.inj h
    exact (Nat.zero_add _).symm
  | _ :: _, [], _, h => nomatch h
  | a :: p, c :: t, r, h => by
    change (if a == c then p.isPrefixOf? t else none) = some r at h
    split at h
    · simp only [List.length_cons, isPrefixOf?_length h]
      omega
    · cases h

theorem skipBlanks_length {t : Text} {c : Char} {r : Text} (h : skipBlanks t = c :: r) : r.length < t.length := by
  have hs : (skipBlanks t).length ≤ t.length := (List.dropWhile_sublist isBlank).length_le
  rw [h, List.length_cons] at hs
  omega

/-! ## Replacing -/

/-- The text with every occurrence of `p` replaced, from left to right; the empty text occurs between all characters. -/
def replaceAll (p r : Text) : Text → Text
  | [] => if p.isEmpty then r else []
  | c :: t =>
    if p.isEmpty then r ++ c :: replaceAll p r t
    else
      match _h : p.isPrefixOf? (c :: t) with
      | some rest => r ++ replaceAll p r rest
      | none => c :: replaceAll p r t
termination_by t => t.length
decreasing_by
  · simp
  · have hp : p.length ≠ 0 := by simp_all
    have := isPrefixOf?_length _h
    omega
  · simp

end Text
end SafeMarkup
