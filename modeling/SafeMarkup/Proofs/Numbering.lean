import SafeMarkup.Markup.TokenStream
import SafeMarkup.Proofs.Spans
/-!
# Names and their numbers

A name table only grows, and at its end, so a number keeps its name while a stream is made.  Its tokens are therefore
found again with their names in lower case (`TokenStream.toTokens?_ofTokens`); the names of what is read from a text are
so already, and the stream of a text is its tokens (`TokenStream.toTokens?_read`).
-/
namespace SafeMarkup

namespace NameTable

theorem prefix_insert (t : NameTable) (name : Text) : t.names <+: (t.insert name).2.names := by
  unfold insert
  split
  · exact List.prefix_refl _
  · exact List.prefix_append _ _

/-- **The number of a name stands for it in lower case.** -/
theorem get?_insert (t : NameTable) (name : Text) : (t.insert name).2.get? (t.insert name).1 = some (Text.fold name) := by
  unfold insert
  split
  · rename_i i hi
    obtain ⟨hlt, heq, -⟩ := List.idxOf?_eq_some_iff.1 hi
    rw [get?, List.getElem?_eq_getElem hlt, heq]
  · rw [get?, size, List.getElem?_concat_length]

theorem get?_of_prefix {t u : NameTable} (h : t.names <+: u.names) {i : Nat} {name : Text}
    (hi : t.get? i = some name) : u.get? i = some name := by
  obtain ⟨v, hv⟩ := h
  rw [get?] at hi ⊢
  rw [← hv, List.getElem?_append_left (List.getElem?_eq_some_iff.1 hi).1, hi]

end NameTable

/-- A list is put through a partial function if each of its members can be. -/
theorem mapM_eq_some_iff {α β : Type} {f : α → Option β} {xs : List α} {ys : List β} :
    xs.mapM f = some ys ↔ List.Forall₂ (f · = some ·) xs ys := by
  induction xs generalizing ys with
  | nil =>
    rw [List.forall₂_nil_left_iff, List.mapM_nil]
    exact Option.some_inj.trans eq_comm
  | cons x xs ih =>
    simp only [List.mapM_cons, Option.bind_eq_bind, Option.bind_eq_some_iff, List.forall₂_cons_left_iff, ih]
    constructor
    · rintro ⟨y, hy, zs, hzs, h⟩
      exact ⟨y, zs, hy, hzs, (Option.some.inj h).symm⟩
    · rintro ⟨y, zs, hy, hzs, rfl⟩
      exact ⟨y, hy, zs, hzs, rfl⟩

namespace Attribute

def folded (a : Attribute Text) : Attribute Text := { a with name := Text.fold a.name }

end Attribute

namespace Token

/-- The token with its names in lower case. -/
def folded : Token Text → Token Text
  | .startTag name as selfClosing => .startTag (Text.fold name) (as.map Attribute.folded) selfClosing
  | .endTag name => .endTag (Text.fold name)
  | tok => tok

end Token

namespace TokenStream

/-! ## Numbers given while a stream is made -/

theorem prefix_numberAttributes : ∀ (as : List (Attribute Text)) (table : NameTable),
    table.names <+: (numberAttributes table as).2.names
  | [], _ => List.prefix_refl _
  | a :: as, table => (table.prefix_insert a.name).trans (prefix_numberAttributes as _)

theorem prefix_numberToken (table : NameTable) (tok : Token Text) : table.names <+: (numberToken table tok).2.names := by
  cases tok with
  | doctype | comment | text => exact List.prefix_refl _
  | endTag name => exact table.prefix_insert name
  | startTag name as => exact (table.prefix_insert name).trans (prefix_numberAttributes as _)

theorem prefix_numberFrom : ∀ (ts : List (Token Text)) (table : NameTable),
    table.names <+: (numberFrom table ts).table.names
  | [], _ => List.prefix_refl _
  | tok :: ts, table => (prefix_numberToken table tok).trans (prefix_numberFrom ts _)

/-! ## Names found again, in the table as it is or as it has grown -/

theorem mapM_attribute? {u : NameTable} : ∀ (as : List (Attribute Text)) (table : NameTable),
    (numberAttributes table as).2.names <+: u.names →
    (numberAttributes table as).1.mapM (attribute? u) = some (as.map Attribute.folded)
  | [], _, _ => rfl
  | a :: as, table, h => by
    have ha : u.get? (table.insert a.name).1 = some (Text.fold a.name) :=
      NameTable.get?_of_prefix ((prefix_numberAttributes as _).trans h) (table.get?_insert a.name)
    have has := mapM_attribute? as (table.insert a.name).2 h
    simp only [numberAttributes, List.mapM_cons, attribute?, ha, has, Option.map_some, List.map_cons]
    rfl

theorem token?_numberToken {table u : NameTable} {tok : Token Text} (h : (numberToken table tok).2.names <+: u.names) :
    token? u (numberToken table tok).1 = some tok.folded := by
  cases tok with
  | doctype | comment | text => rfl
  | endTag name =>
    simp only [numberToken, token?, NameTable.get?_of_prefix h (table.get?_insert name), Option.map_some]
    rfl
  | startTag name as selfClosing =>
    have hname : u.get? (table.insert name).1 = some (Text.fold name) :=
      NameTable.get?_of_prefix ((prefix_numberAttributes as _).trans h) (table.get?_insert name)
    have has := mapM_attribute? as (table.insert name).2 h
    simp only [numberToken, token?, hname, has]
    rfl

theorem mapM_token? {u : NameTable} : ∀ (ts : List (Token Text)) (table : NameTable),
    (numberFrom table ts).table.names <+: u.names →
    (numberFrom table ts).tokens.mapM (token? u) = some (ts.map Token.folded)
  | [], _, _ => rfl
  | tok :: ts, table, h => by
    have htok := token?_numberToken ((prefix_numberFrom ts _).trans h)
    have hts := mapM_token? ts (numberToken table tok).2 h
    simp only [numberFrom, List.mapM_cons, htok, hts, List.map_cons]
    rfl

/-- **A stream has the tokens it was made of**, their names in lower case. -/
theorem toTokens?_ofTokens (ts : List (Token Text)) : (ofTokens ts).toTokens? = some (ts.map Token.folded) :=
  mapM_token? ts .empty (List.prefix_refl _)

end TokenStream

/-! ## What is read from a text -/

namespace Span

theorem folded_rawText (name t : Text) :
    (ofRawText (Text.fold name) t).tokens.map Token.folded = (ofRawText (Text.fold name) t).tokens := by
  simp only [ofRawText]
  split <;> simp [Token.folded, Text.fold_fold]

theorem folded_ofStartTag (t : Text) : (ofStartTag t).tokens.map Token.folded = (ofStartTag t).tokens := by
  have has : (Tag.read (t.dropWhile Element.isNameChar)).attributes.map Attribute.folded =
      (Tag.read (t.dropWhile Element.isNameChar)).attributes := by
    refine (List.map_congr_left fun a ha => ?_).trans (List.map_id _)
    rw [Attribute.folded, Element.fold_of_isAttributeName (Tag.read_names _ a ha)]
    rfl
  simp only [ofStartTag]
  split
  · rw [List.map_cons, folded_rawText, Token.folded, Text.fold_fold, has]
  · rw [List.map_singleton, Token.folded, Text.fold_fold, has]

theorem folded_read (t : Text) : (read t).tokens.map Token.folded = (read t).tokens := by
  rw [read]
  split
  · unfold ofMarkup
    split
    · unfold ofDeclaration
      split
      · rfl
      · split
        · unfold ofDoctype
          split <;> rfl
        · rfl
    · rfl
    · simp only [ofEndTag]
      split
      · rfl
      · rw [List.map_singleton, Token.folded, Text.fold_fold]
    · exact folded_ofStartTag _
  · cases t <;> rfl

end Span

theorem folded_tokens (t : Text) : (tokens t).map Token.folded = tokens t := by
  induction t using tokens.induct with
  | case1 => rw [tokens_nil, List.map_nil]
  | case2 c t s ih =>
    rw [tokens_cons, List.map_append, Span.folded_read]
    exact congrArg _ ih

/-- **The stream of a text is its tokens**, names compared by their spelling. -/
theorem TokenStream.toTokens?_read (t : Text) : (TokenStream.read t).toTokens? = some (SafeMarkup.tokens t) := by
  rw [TokenStream.read, toTokens?_ofTokens, folded_tokens]

end SafeMarkup
