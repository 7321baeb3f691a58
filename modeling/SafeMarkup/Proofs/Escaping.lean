import SafeMarkup.Proofs.ReadBack
/-!
# Escaped texts

Nothing is left of an escaped text that could begin or end markup or a value, and its `&` begin the references that
stand for what is not left.  So it is read as the text it was made from: as markup, as a quoted attribute value and
before any other text (`Trusted.escape_inert`).
-/
namespace SafeMarkup

namespace Reference

/-- **Every `&` of an escaped text begins one of the escapes.** -/
theorem exists_escape_prefix : ∀ {s u v : Text}, s.flatMap anywhere = u ++ '&' :: v → ∃ e ∈ escapes, e <+: '&' :: v
  | [], u, v, h => by simp at h
  | c :: s, u, v, h => by
    rw [List.flatMap_cons] at h
    rcases anywhere_cases c with he | ⟨hamp, -, he⟩
    · obtain ⟨body, hbody, hnot, -⟩ := exists_of_mem_escapes he
      cases u with
      | nil => exact ⟨anywhere c, he, _, h⟩
      | cons d u =>
        -- the `&` is not the escape's own, so it stands behind the escape
        rw [hbody] at h
        obtain ⟨w, -, hw⟩ := Text.exists_append_of_notMem hnot (List.cons.inj h).2.symm
        exact exists_escape_prefix hw
    · rw [he] at h
      cases u with
      | nil => exact absurd (List.cons.inj h).1 hamp
      | cons d u => exact exists_escape_prefix (List.cons.inj h).2

end Reference

/-! ## Quoted values -/

namespace Node

/-- An element without content and with one attribute, as an author may write it. -/
def writeQuoted (tag name : Text) (q : Char) (v : Text) : Text :=
  '<' :: tag ++ ' ' :: name ++ '=' :: q :: v ++ [q, '>'] ++ writeEnd tag

end Node

namespace Span

variable {tag name v : Text} {q : Char}

theorem read_writeQuoted (ht : Element.isTagSpelling tag = true) (hr : Element.isRawText tag = false)
    (hn : Element.isAttributeSpelling name = true) (hq : q = '"' ∨ q = '\'') (hv : q ∉ v) :
    read (Node.writeQuoted tag name q v) =
      ⟨[.startTag (Text.fold tag) [⟨Text.fold name, some (Reference.decode v)⟩] (Element.isVoid (Text.fold tag))],
        Node.writeEnd tag⟩ := by
  have hnc := Element.isNameChar_of_isTagSpelling ht
  have hw : Node.writeQuoted tag name q v =
      '<' :: (tag ++ ' ' :: (name ++ '=' :: q :: (v ++ q :: ('>' :: Node.writeEnd tag)))) := by
    simp [Node.writeQuoted]
  have htag : Tag.read (' ' :: (name ++ '=' :: q :: (v ++ q :: ('>' :: Node.writeEnd tag)))) =
      ⟨[⟨Text.fold name, some (Reference.decode v)⟩], false, Node.writeEnd tag⟩ := by
    rw [Tag.read, Tag.readAll_quoted hn hq hv, Tag.readAll_gt]
    rfl
  rw [hw, read_of_isTagSpelling ht, ofStartTag, Text.takeWhile_append_cons hnc (by decide),
    Text.dropWhile_append_cons hnc (by decide), htag]
  simp only [Element.isRawText_fold, hr, Bool.and_false, Bool.false_or]
  rfl

end Span

namespace Node

/-- **A quoted value is read as one attribute**, its references decoded. -/
theorem parse_writeQuoted {tag name v : Text} {q : Char} (ht : Element.isTagSpelling tag = true)
    (hr : Element.isRawText tag = false) (hn : Element.isAttributeSpelling name = true) (hq : q = '"' ∨ q = '\'')
    (hv : q ∉ v) :
    parse (writeQuoted tag name q v) =
      .element Element.root [] [.element (Text.fold tag) [⟨Text.fold name, some (Reference.decode v)⟩] []] := by
  have hend : Span.read (writeEnd tag) = ⟨[.endTag (Text.fold tag)], []⟩ := by
    have h := Span.read_endTag ht []
    rwa [List.append_nil] at h
  change (Fragment.empty.read (writeQuoted tag name q v)).toNode = _
  rw [Fragment.read_span _ (by simp [writeQuoted]) (Span.read_writeQuoted ht hr hn hq hv),
    Fragment.read_span _ (by simp [writeEnd]) hend, Fragment.read_nil]
  generalize Text.fold tag = t
  cases Element.isVoid t with
  | true => rfl -- the end tag closes nothing
  | false => exact congrArg Fragment.toNode (Fragment.close_innermost t _ [] Fragment.empty)

end Node

namespace Trusted

/-- **Escaping is inert and is undone by reading.**  An escaped text has nothing special in it, and every `&` of it
begins an escape; it is read as the text itself, as markup and in the quoted value of any attribute; and decoding it,
or the text escaped as a text or a value, gives the text back, whatever follows. -/
theorem escape_inert (s : Text) :
    (∀ c ∈ (escape s).content, c ∉ Reference.special) ∧
    (∀ u v, (escape s).content = u ++ '&' :: v → ∃ e ∈ Reference.escapes, e <+: '&' :: v) ∧
    Node.parse (escape s).content = .element Element.root [] (if s.isEmpty then [] else [.text s]) ∧
    (∀ tag name q, Element.isTagSpelling tag = true → Element.isRawText tag = false →
      Element.isAttributeSpelling name = true → q = '"' ∨ q = '\'' →
      Node.parse (Node.writeQuoted tag name q (escape s).content) =
        .element Element.root [] [.element (Text.fold tag) [⟨Text.fold name, some s⟩] []]) ∧
    ∀ z, Reference.decode ((escape s).content ++ z) = s ++ Reference.decode z ∧
      Reference.decode (escapeText s ++ z) = s ++ Reference.decode z ∧
      Reference.decode (escapeValue s ++ z) = s ++ Reference.decode z := by
  refine ⟨fun c hc => Reference.notMem_special_of_mem_escape hc, fun u v h => Reference.exists_escape_prefix h, ?_,
    ?_, fun z => ⟨?_, ?_, ?_⟩⟩
  · rw [Node.parse_of_closed (Text.closed_escape s)]
    cases s <;> rfl
  · intro tag name q ht hr hn hq
    have hv : q ∉ (escape s).content := fun hm =>
      Reference.notMem_special_of_mem_escape hm (by rcases hq with rfl | rfl <;> decide)
    rw [Node.parse_writeQuoted ht hr hn hq hv, Reference.decode_of_decode_append (Reference.decode_escapeAnywhere s)]
  · exact Reference.decode_escapeAnywhere s z
  · exact Reference.decode_escapeText s z
  · exact Reference.decode_escape Reference.decode_inValue z s

theorem escape_inert_void :
    Node.parse "<BR Title='&lt;&#39;&amp;'></BR>".toList =
      .element Element.root [] [.element "br".toList [⟨"title".toList, some "<'&".toList⟩] []] :=
  (escape_inert "<'&".toList).2.2.2.1 "BR".toList "Title".toList '\'' (by decide) (by decide) (by decide) (.inr rfl)

end Trusted
end SafeMarkup
