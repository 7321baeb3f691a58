import SafeMarkup.Markup.Token
/-!
# Spans: markup read from left to right

A text is read span by span.  Where markup begins, the span is a comment, a doctype, an end tag or a start tag, which
takes its raw text and end tag along if the element is one of raw text; elsewhere it is a run of text up to the next
place where markup begins.  A span depends on nothing before it, takes at least one character (`Span.read_length`)
and gives at most three tokens; `tokens` puts the tokens of all spans in a row.
-/
namespace SafeMarkup

/-- The tokens of the first span of a text, and the text after it. -/
structure Span where
  tokens : List (Token Text)
  rest : Text

namespace Span

/-- Markup begins at `<` before a letter, `!` or `?`, and at `</` before a letter or `>`. -/
def opensMarkup : Text → Bool
  | '<' :: '/' :: c :: _ => c.isAlpha || c == '>'
  | '<' :: c :: _ => c.isAlpha || c == '!' || c == '?'
  | _ => false

/-- A run of text: one character, whatever it is, and what follows it up to the next markup. -/
def ofRun : Text → Span
  | [] => ⟨[], []⟩
  | c :: t =>
    let r := Text.cutAt opensMarkup t
    ⟨[.text (Reference.decode (c :: r.1))], r.2⟩

/-- A comment whose `<!--` has been read: it ends at `-->`. -/
def ofComment (t : Text) : Span :=
  let r := Text.cutAt (['-', '-', '>'].isPrefixOf ·) t
  ⟨[.comment r.1], r.2.drop 3⟩

/-- Any other declaration or instruction is a comment that ends at `>`. -/
def ofBogus (t : Text) : Span :=
  ⟨[.comment (t.takeWhile (· != '>'))], (t.dropWhile (· != '>')).drop 1⟩

/-- A doctype whose `<!` has been read.  One that does not end is nothing. -/
def ofDoctype (t : Text) : Span :=
  match t.dropWhile (· != '>') with
  | [] => ⟨[], []⟩
  | _ :: rest => ⟨[.doctype (Text.trim (t.takeWhile (· != '>')))], rest⟩

/-- What follows `<!`. -/
def ofDeclaration (t : Text) : Span :=
  match t with
  | '-' :: '-' :: t => ofComment t
  | t => if (Text.afterFolded? ['d', 'o', 'c', 't', 'y', 'p', 'e'] t).isSome then ofDoctype t else ofBogus t

/-- An end tag whose `</` has been read.  One without a name is nothing. -/
def ofEndTag (t : Text) : Span :=
  let name := t.takeWhile Element.isNameChar
  ⟨if name.isEmpty then [] else [.endTag (Text.fold name)], (t.dropWhile (· != '>')).drop 1⟩

/-- What follows an end tag of `name` at the start of a text.  Only blanks may stand before its `>`. -/
def afterEndTag? (name : Text) : Text → Option Text
  | '<' :: '/' :: t =>
    match (Text.afterFolded? name t).map Text.skipBlanks with
    | some ('>' :: rest) => some rest
    | _ => none
  | _ => none

/-- The text of a raw-text element, as it is written up to the element's own end tag, and that end tag. -/
def ofRawText (name : Text) (t : Text) : Span :=
  let r := Text.cutAt (fun s => (afterEndTag? name s).isSome) t
  ⟨if r.1.isEmpty then [.endTag name] else [.text r.1, .endTag name], (afterEndTag? name r.2).getD []⟩

/-- A start tag whose `<` has been read, with the raw text that belongs to it. -/
def ofStartTag (t : Text) : Span :=
  let name := Text.fold (t.takeWhile Element.isNameChar)
  let g := Tag.read (t.dropWhile Element.isNameChar)
  let selfClosing := g.slashed || Element.isVoid name
  let start := Token.startTag name g.attributes selfClosing
  if !selfClosing && Element.isRawText name then
    let raw := ofRawText name g.rest
    ⟨start :: raw.tokens, raw.rest⟩
  else ⟨[start], g.rest⟩

/-- What follows the `<` that begins markup. -/
def ofMarkup : Text → Span
  | '!' :: t => ofDeclaration t
  | '?' :: t => ofBogus ('?' :: t)
  | '/' :: t => ofEndTag t
  | t => ofStartTag t

def read (t : Text) : Span :=
  if opensMarkup t then ofMarkup (t.drop 1) else ofRun t

/-! ## A span takes at least one character -/

theorem length_drop_dropWhile (p : Char → Bool) (n : Nat) (t : Text) :
    ((t.dropWhile p).drop n).length ≤ t.length :=
  ((List.drop_sublist n _).trans (List.dropWhile_sublist p)).length_le

theorem ofComment_length (t : Text) : (ofComment t).rest.length ≤ t.length := by
  have := Text.cutAt_length (['-', '-', '>'].isPrefixOf ·) t
  simp only [ofComment, List.length_drop]
  omega

theorem ofBogus_length (t : Text) : (ofBogus t).rest.length ≤ t.length := length_drop_dropWhile _ _ _

theorem ofDoctype_length (t : Text) : (ofDoctype t).rest.length ≤ t.length := by
  have := (List.dropWhile_sublist (l := t) (· != '>')).length_le
  unfold ofDoctype
  split
  · simp
  · rename_i h
    simp only [h, List.length_cons] at this ⊢
    omega

theorem ofDeclaration_length (t : Text) : (ofDeclaration t).rest.length ≤ t.length := by
  unfold ofDeclaration
  split
  · rename_i t
    have := ofComment_length t
    simp only [List.length_cons]
    omega
  · split
    · exact ofDoctype_length _
    · exact ofBogus_length _

theorem afterEndTag?_length {name t rest : Text} (h : afterEndTag? name t = some rest) :
    rest.length < t.length := by
  unfold afterEndTag? at h
  split at h
  · rename_i t
    split at h
    · rename_i r hr
      obtain ⟨s, hs, hb⟩ := Option.map_eq_some_iff.1 hr
      have := Text.afterFolded?_length hs
      have := Text.skipBlanks_length hb
      cases h
      simp only [List.length_cons]
      omega
    · cases h
  · cases h

theorem ofRawText_length (name t : Text) : (ofRawText name t).rest.length ≤ t.length := by
  have h := Text.cutAt_length (fun s => (afterEndTag? name s).isSome) t
  simp only [ofRawText]
  generalize Text.cutAt _ t = r at h ⊢
  cases hr : afterEndTag? name r.2 with
  | none => simp
  | some rest =>
    have := afterEndTag?_length hr
    simp only [Option.getD_some]
    omega

theorem ofStartTag_length (t : Text) : (ofStartTag t).rest.length ≤ t.length := by
  have h := (List.dropWhile_sublist (l := t) Element.isNameChar).length_le
  have hg := Tag.read_length (t.dropWhile Element.isNameChar)
  simp only [ofStartTag]
  split
  · exact Nat.le_trans (ofRawText_length _ _) (Nat.le_trans hg h)
  · exact Nat.le_trans hg h

theorem ofMarkup_length (t : Text) : (ofMarkup t).rest.length ≤ t.length := by
  unfold ofMarkup
  split
  · rename_i t
    exact Nat.le_trans (ofDeclaration_length t) (Nat.le_succ _)
  · exact ofBogus_length _
  · rename_i t
    exact Nat.le_trans (length_drop_dropWhile _ _ t) (Nat.le_succ _)
  · exact ofStartTag_length _

theorem read_length {c : Char} {t : Text} : (read (c :: t)).rest.length < (c :: t).length := by
  unfold read
  split
  · exact Nat.lt_succ_of_le (ofMarkup_length t)
  · exact Nat.lt_succ_of_le (Text.cutAt_length opensMarkup t)

end Span

/-- The tokens of a text. -/
def tokens : Text → List (Token Text)
  | [] => []
  | c :: t =>
    let s := Span.read (c :: t)
    s.tokens ++ tokens s.rest
termination_by t => t.length
decreasing_by exact Span.read_length

theorem tokens_nil : tokens [] = [] := by rw [tokens]

/-- A text is its first span and the rest, whatever the first span is. -/
theorem tokens_cons (c : Char) (t : Text) :
    tokens (c :: t) = (Span.read (c :: t)).tokens ++ tokens (Span.read (c :: t)).rest := by
  rw [tokens]

end SafeMarkup
