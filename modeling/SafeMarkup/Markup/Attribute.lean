import SafeMarkup.Markup.Reference
import SafeMarkup.Markup.Element
/-!
# Attributes

An attribute is a name with a value or without one.  It is written as a bare name, or with `=` and a value in double
quotes, in single quotes or in none; a value's references are decoded.  `Tag.read` reads everything from a tag's name
to its end, whatever stands there: a slash, an equals sign, a bracket or a quote where a name should be is passed over.
Of two attributes with one name the first stays.
-/
namespace SafeMarkup

/-- An attribute, whose name is of type `ν`. -/
structure Attribute (ν : Type) where
  name : ν
  value : Option Text
  deriving DecidableEq

namespace Attribute

/-- Where a value without quotes ends: at a blank, at `>` and at `/>`. -/
def endsBareValue : Text → Bool
  | [] => false
  | c :: t => Text.isBlank c || c == '>' || (c == '/' && t.head? == some '>')

/-- A value as it is written, and what follows it.  A quoted value without its second quote takes the whole text. -/
def readValue (t : Text) : Text × Text :=
  match Text.skipBlanks t with
  | '"' :: t => (t.takeWhile (· != '"'), (t.dropWhile (· != '"')).drop 1)
  | '\'' :: t => (t.takeWhile (· != '\''), (t.dropWhile (· != '\'')).drop 1)
  | t => Text.cutAt endsBareValue t

/-- The attribute that starts a text, and what follows it. -/
def read (t : Text) : Attribute Text × Text :=
  let name := Text.fold (t.takeWhile Element.isAttributeChar)
  match Text.skipBlanks (t.dropWhile Element.isAttributeChar) with
  | '=' :: t =>
    let v := readValue t
    (⟨name, some (Reference.decode v.1)⟩, v.2)
  | t => (⟨name, none⟩, t)

/-- The list without the attributes whose name stands earlier in it. -/
def keepFirst : List (Attribute Text) → List (Attribute Text)
  | [] => []
  | a :: as => a :: (keepFirst as).filter (·.name != a.name)

theorem readValue_length (t : Text) : (readValue t).2.length ≤ t.length := by
  have hs : (Text.skipBlanks t).length ≤ t.length := (List.dropWhile_sublist Text.isBlank).length_le
  unfold readValue
  split
  · rename_i r h
    have := (List.dropWhile_sublist (l := r) (· != '"')).length_le
    simp only [h, List.length_cons, List.length_drop] at hs ⊢
    omega
  · rename_i r h
    have := (List.dropWhile_sublist (l := r) (· != '\'')).length_le
    simp only [h, List.length_cons, List.length_drop] at hs ⊢
    omega
  · exact Nat.le_trans (Text.cutAt_length _ _) hs

/-- An attribute takes at least the first character of its name. -/
theorem read_length {c : Char} {t : Text} (h : Element.isAttributeChar c = true) :
    (read (c :: t)).2.length < (c :: t).length := by
  have hd : ((c :: t).dropWhile Element.isAttributeChar).length ≤ t.length := by
    rw [List.dropWhile_cons, if_pos h]
    exact (List.dropWhile_sublist Element.isAttributeChar).length_le
  have hs := Nat.le_trans (List.dropWhile_sublist Text.isBlank).length_le hd
  unfold read
  simp only [Text.skipBlanks, List.length_cons]
  split
  · rename_i r hr
    have := readValue_length r
    rw [hr, List.length_cons] at hs
    simp only
    omega
  · simp only
    omega

end Attribute

/-- What stands between a tag's name and its end: the attributes, whether the end is `/>`, and what follows it. -/
structure Tag where
  attributes : List (Attribute Text)
  slashed : Bool
  rest : Text

namespace Tag

def cons (a : Attribute Text) (g : Tag) : Tag := { g with attributes := a :: g.attributes }

/-- The attributes as they are written, and the end of the tag; the end of the text ends it too. -/
def readAll (t : Text) : Tag :=
  match _h : Text.skipBlanks t with
  | [] => ⟨[], false, []⟩
  | '>' :: r => ⟨[], false, r⟩
  | '/' :: '>' :: r => ⟨[], true, r⟩
  | c :: r =>
    if _hc : Element.isAttributeChar c then
      let a := Attribute.read (c :: r)
      (readAll a.2).cons a.1
    else readAll r
termination_by t.length
decreasing_by
  · exact Nat.lt_of_lt_of_le (Attribute.read_length _hc) (Text.skipBlanks_length _h)
  · exact Text.skipBlanks_length _h

def read (t : Text) : Tag :=
  let g := readAll t
  { g with attributes := Attribute.keepFirst g.attributes }

theorem readAll_length (t : Text) : (readAll t).rest.length ≤ t.length := by
  fun_induction readAll t with
  | case1 => simp
  | case2 t r h => exact Nat.le_of_lt (Text.skipBlanks_length h)
  | case3 t r h =>
    have := Text.skipBlanks_length h
    simp only [List.length_cons] at this
    simp only
    omega
  | case4 t c r _ _ h hc a ih =>
    exact Nat.le_trans ih (Nat.le_of_lt (Nat.lt_of_lt_of_le (Attribute.read_length hc) (Text.skipBlanks_length h)))
  | case5 t c r _ _ h _ ih => exact Nat.le_trans ih (Nat.le_of_lt (Text.skipBlanks_length h))

theorem read_length (t : Text) : (read t).rest.length ≤ t.length := readAll_length t

end Tag
end SafeMarkup
