import SafeMarkup.Proofs.Numbering
import SafeMarkup.Proofs.TagGrammar
/-!
# Where raw text ends

The text of a raw-text element is kept as it is written up to the leftmost end tag of the element, its name in any case
and blanks before its `>`, or to the end if there is none (`Span.toTokens?_read_rawText`).  What only looks like that end
tag does not end it: a longer name, more behind the name, another element's end tag, one that is cut off.
-/
namespace SafeMarkup

namespace Element

variable {name tag t body rest : Text}

/-- An end tag of an element. -/
def EndTag (name tag : Text) : Prop :=
  ∃ spelled blanks, Text.sameFolded spelled name = true ∧ Text.Blank blanks ∧
    tag = '<' :: '/' :: (spelled ++ (blanks ++ ['>']))

/-- `FirstEndTag name t body tag rest`: of the end tags of an element in `t`, the leftmost is `tag`, between `body` and
`rest`. -/
structure FirstEndTag (name t body tag rest : Text) : Prop where
  parts : t = body ++ (tag ++ rest)
  endTag : EndTag name tag
  leftmost : ∀ u tag' v, t = u ++ (tag' ++ v) → EndTag name tag' → body.length ≤ u.length

/-- What looks like an end tag of an element, at the start of a text, and is none. -/
inductive NearMatch (name : Text) : Text → Prop where
  /-- Something stands behind the name, right away or after blanks: a longer name, or attributes. -/
  | followed {spelled blanks z : Text} {c : Char} (hs : Text.sameFolded spelled name = true) (hb : Text.Blank blanks)
      (hc : Text.isBlank c = false) (hgt : c ≠ '>') : NearMatch name ('<' :: '/' :: (spelled ++ (blanks ++ c :: z)))
  | other {element tag z : Text} (hr : isRawText element = true) (hne : Text.sameFolded element name = false)
      (ht : EndTag element tag) : NearMatch name (tag ++ z)
  /-- The text ends before the end tag does. -/
  | cut {tag p s : Text} (ht : EndTag name tag) (hp : tag = p ++ s) (hs : s ≠ []) : NearMatch name p

theorem afterEndTag?_eq_some_iff : Span.afterEndTag? name t = some rest ↔ ∃ tag, EndTag name tag ∧ t = tag ++ rest := by
  rw [Span.afterEndTag?_eq_some_iff]
  constructor
  · rintro ⟨spelled, blanks, hs, hb, rfl⟩
    exact ⟨_, ⟨spelled, blanks, hs, hb, rfl⟩, by simp⟩
  · rintro ⟨_, ⟨spelled, blanks, hs, hb, rfl⟩, rfl⟩
    exact ⟨spelled, blanks, hs, hb, by simp⟩

theorem isSome_afterEndTag?_iff :
    (Span.afterEndTag? name t).isSome = true ↔ ∃ tag v, EndTag name tag ∧ t = tag ++ v := by
  rw [Option.isSome_iff_exists]
  simp only [afterEndTag?_eq_some_iff]
  exact exists_comm

theorem hasEndTag_iff_exists : HasEndTag name t ↔ ∃ u tag v, EndTag name tag ∧ t = u ++ (tag ++ v) := by
  constructor
  · rintro ⟨spelled, blanks, hs, hb, u, v, rfl⟩
    exact ⟨u, _, v, ⟨spelled, blanks, hs, hb, rfl⟩, by simp⟩
  · rintro ⟨u, _, v, ⟨spelled, blanks, hs, hb, rfl⟩, rfl⟩
    exact ⟨spelled, blanks, hs, hb, u, v, by simp⟩

theorem endTag_fold : EndTag (Text.fold name) tag ↔ EndTag name tag := by
  simp only [EndTag, Text.sameFolded_iff, Text.fold_fold]

theorem hasEndTag_fold : HasEndTag (Text.fold name) t ↔ HasEndTag name t := by
  simp only [hasEndTag_iff_exists, endTag_fold]

/-! ## Names of raw-text elements -/

theorem isLower_of_mem_rawText {element : Text} (h : element ∈ rawText) :
    element ≠ [] ∧ (∀ c ∈ Text.fold element, c.isLower = true) ∧ isVoid (Text.fold element) = false := by
  have hall : (rawText.all fun e => !e.isEmpty && (Text.fold e).all Char.isLower && !isVoid (Text.fold e)) = true := by
    decide
  simpa [and_assoc] using List.all_eq_true.1 hall element h

/-- The names of raw-text elements are made of letters, in any case. -/
theorem isTagSpelling_of_isRawText (h : isRawText name = true) : isTagSpelling name = true := by
  obtain ⟨element, hmem, hsame⟩ := List.any_eq_true.1 h
  obtain ⟨hne, hlower, -⟩ := isLower_of_mem_rawText hmem
  rw [Text.sameFolded_iff] at hsame
  rw [hsame] at hlower
  have halpha : ∀ c ∈ name, c.isAlpha = true := fun c hc => by
    simpa using hlower _ (List.mem_map.2 ⟨c, hc, rfl⟩)
  cases name with
  | nil => exact absurd (List.map_eq_nil_iff.1 hsame) hne
  | cons c t =>
    obtain ⟨hc, ht⟩ := List.forall_mem_cons.1 halpha
    exact isTagSpelling_iff.2 ⟨c, t, rfl, hc, fun d hd => isNameChar_of_isAlpha (ht d hd)⟩

theorem isVoid_of_isRawText (h : isRawText name = true) : isVoid (Text.fold name) = false := by
  obtain ⟨element, hmem, hsame⟩ := List.any_eq_true.1 h
  rw [← Text.sameFolded_iff.1 hsame]
  exact (isLower_of_mem_rawText hmem).2.2

theorem isNameChar_of_toLower {c : Char} (h : isNameChar c.toLower = true) : isNameChar c = true := by
  by_cases hu : c.isUpper = true
  · exact isNameChar_of_isAlpha (by simp [Char.isAlpha, hu])
  · rwa [Char.toLower_eq_of_not_isUpper hu] at h

theorem isNameChar_of_sameFolded {spelled : Text} (hn : isTagSpelling name = true)
    (hs : Text.sameFolded spelled name = true) : ∀ c ∈ spelled, isNameChar c = true := by
  intro c hc
  rw [Text.sameFolded_iff] at hs
  obtain ⟨d, hd, hdc⟩ := List.mem_map.1 (hs ▸ List.mem_map.2 ⟨c, hc, rfl⟩ : c.toLower ∈ Text.fold name)
  exact isNameChar_of_toLower (hdc ▸ isNameChar_toLower (isNameChar_of_isTagSpelling hn d hd))

/-! ## Near matches -/

/-- The `>` of an end tag is its last character and no other. -/
theorem EndTag.gt_notMem (hn : isTagSpelling name = true) {p s : Text} (h : EndTag name tag) (hp : tag = p ++ s)
    (hs : s ≠ []) : '>' ∉ p := by
  obtain ⟨spelled, blanks, hsp, hb, rfl⟩ := h
  have hdrop := congrArg List.dropLast hp
  rw [List.dropLast_append_of_ne_nil hs, ← List.cons_append, ← List.cons_append, ← List.append_assoc,
    List.dropLast_concat] at hdrop
  have hgt : '>' ∉ '<' :: '/' :: spelled ++ blanks := by
    simp only [List.cons_append, List.mem_cons, List.mem_append, not_or]
    refine ⟨by decide, by decide, fun hm => ?_, fun hm => absurd (hb _ hm) (by decide)⟩
    exact absurd (isNameChar_of_sameFolded hn hsp _ hm) (by decide)
  exact fun hm => hgt (hdrop ▸ List.mem_append_left _ hm)

theorem EndTag.ne_nil (h : EndTag name tag) : tag ≠ [] := by
  obtain ⟨spelled, blanks, -, -, rfl⟩ := h
  simp

theorem EndTag.gt_mem (h : EndTag name tag) : '>' ∈ tag := by
  obtain ⟨spelled, blanks, -, -, rfl⟩ := h
  simp

/-- The name of an end tag is its run of name characters. -/
theorem EndTag.takeWhile (hn : isTagSpelling name = true) (h : EndTag name tag) (z : Text) :
    Text.fold (((tag ++ z).drop 2).takeWhile isNameChar) = Text.fold name := by
  obtain ⟨spelled, blanks, hs, hb, rfl⟩ := h
  have hend := Text.forall_head?_append (t := z) hb (fun _ hc => isNameChar_of_isBlank hc)
    (by decide : isNameChar '>' = false)
  have htext : ('<' :: '/' :: (spelled ++ (blanks ++ ['>'])) ++ z).drop 2 = spelled ++ (blanks ++ '>' :: z) := by simp
  rw [htext, (Text.run_append (isNameChar_of_sameFolded hn hs) hend).1]
  exact Text.sameFolded_iff.1 hs

/-- **A near match is no end tag.** -/
theorem NearMatch.afterEndTag? (hr : isRawText name = true) {v : Text} (h : NearMatch name v) :
    Span.afterEndTag? name v = none := by
  have hn := isTagSpelling_of_isRawText hr
  cases h with
  | @followed spelled blanks z c hs hb hc hgt =>
    have hname : Text.afterFolded? name (spelled ++ (blanks ++ c :: z)) = some (blanks ++ c :: z) :=
      Text.afterFolded?_eq_some_iff.2 ⟨spelled, hs, rfl⟩
    have hrest : Text.skipBlanks (blanks ++ c :: z) = c :: z := by
      rw [Text.skipBlanks_append hb, Text.skipBlanks_cons hc]
    rw [Span.afterEndTag?, hname, Option.map_some, hrest]
    split
    · rename_i he
      exact absurd (List.cons.inj (Option.some.inj he)).1 hgt
    · rfl
  | @other element tag z hr' hne ht =>
    rw [Option.eq_none_iff_forall_not_mem]
    intro rest hrest
    obtain ⟨tag', ht', he⟩ := afterEndTag?_eq_some_iff.1 hrest
    have hfold := ht.takeWhile (isTagSpelling_of_isRawText hr') z
    rw [he, ht'.takeWhile hn] at hfold
    rw [Text.sameFolded_iff.2 hfold.symm] at hne
    cases hne
  | @cut tag p s ht hp hs =>
    rw [Option.eq_none_iff_forall_not_mem]
    intro rest hrest
    obtain ⟨tag', ht', rfl⟩ := afterEndTag?_eq_some_iff.1 hrest
    exact ht.gt_notMem hn hp hs (List.mem_append_left _ ht'.gt_mem)

/-! ## The leftmost end tag -/

/-- No end tag begins before the leftmost one. -/
theorem FirstEndTag.inside (h : FirstEndTag name t body tag rest) {u v : Text} {c : Char} (hb : body = u ++ c :: v) :
    Span.afterEndTag? name (c :: v ++ (tag ++ rest)) = none := by
  rw [Option.eq_none_iff_forall_not_mem]
  intro rest' hrest
  obtain ⟨tag', ht', he⟩ := afterEndTag?_eq_some_iff.1 hrest
  have hle := h.leftmost u tag' rest' (by rw [h.parts, hb, List.append_assoc, he]) ht'
  rw [hb, List.length_append, List.length_cons] at hle
  omega

theorem FirstEndTag.of_inside (ht : EndTag name tag)
    (h : ∀ u c v, body = u ++ c :: v → Span.afterEndTag? name (c :: v ++ (tag ++ rest)) = none) :
    FirstEndTag name (body ++ (tag ++ rest)) body tag rest where
  parts := rfl
  endTag := ht
  leftmost := by
    intro u tag' v he ht'
    obtain ⟨w, rfl, -⟩ | ⟨w, rfl, hw⟩ := List.append_eq_append_iff.1 he
    · simp
    · cases w with
      | nil => simp
      | cons c w =>
        have hsome := afterEndTag?_eq_some_iff.2 ⟨tag', ht', hw.symm⟩
        rw [h u c w rfl] at hsome
        cases hsome

theorem exists_firstEndTag (h : HasEndTag name t) : ∃ body tag rest, FirstEndTag name t body tag rest := by
  obtain ⟨body, r, rfl, hin, rfl | hr⟩ := Text.exists_cutAt (fun s => (Span.afterEndTag? name s).isSome) t
  · -- the condition holds where the end tag begins, so the text is not cut at its end
    obtain ⟨u, tag, v, htag, he⟩ := hasEndTag_iff_exists.1 h
    obtain ⟨c, w, rfl⟩ := List.exists_cons_of_ne_nil htag.ne_nil
    have hnone := hin u c (w ++ v) (by simpa using he)
    rw [isSome_afterEndTag?_iff.2 ⟨c :: w, v, htag, by simp⟩] at hnone
    cases hnone
  · obtain ⟨tag, rest, htag, rfl⟩ := isSome_afterEndTag?_iff.1 hr
    exact ⟨body, tag, rest, .of_inside htag fun u c v hb => by simpa using hin u c v hb⟩

end Element

namespace Span

variable {name t x body tag rest : Text} {as : List (Attribute Text)}

/-- What raw text gives: itself, unless there is none. -/
def rawTokens (body : Text) : List (Token Text) := if body.isEmpty then [] else [.text body]

/-- **Raw text ends at the leftmost end tag.** -/
theorem ofRawText_of_firstEndTag (h : Element.FirstEndTag name t body tag rest) :
    ofRawText name t = ⟨rawTokens body ++ [.endTag name], rest⟩ := by
  have hend : afterEndTag? name (tag ++ rest) = some rest := Element.afterEndTag?_eq_some_iff.2 ⟨tag, h.endTag, rfl⟩
  have hcut : Text.cutAt (fun s => (afterEndTag? name s).isSome) (body ++ (tag ++ rest)) = (body, tag ++ rest) :=
    Text.cutAt_eq_of (fun u c v hb => by rw [h.inside hb, Option.isSome_none]) (.inr (by rw [hend, Option.isSome_some]))
  rw [ofRawText, h.parts, hcut, hend, rawTokens]
  cases body <;> rfl

/-- **Raw text without an end tag is all of the text.** -/
theorem ofRawText_of_not_hasEndTag (h : ¬Element.HasEndTag name t) :
    ofRawText name t = ⟨rawTokens t ++ [.endTag name], []⟩ := by
  have hnone : ∀ u c v, t = u ++ c :: v → (afterEndTag? name (c :: v ++ [])).isSome = false := by
    intro u c v ht
    rw [List.append_nil, ← Bool.not_eq_true]
    intro hsome
    obtain ⟨tag, rest, htag, he⟩ := Element.isSome_afterEndTag?_iff.1 hsome
    exact h (Element.hasEndTag_iff_exists.2 ⟨u, tag, rest, htag, by rw [ht, he]⟩)
  have hcut := Text.cutAt_eq_of (p := fun s => (afterEndTag? name s).isSome) hnone (.inl rfl)
  rw [List.append_nil] at hcut
  rw [ofRawText, hcut, rawTokens]
  cases t <;> rfl

theorem ofRawText_fold_of_firstEndTag (h : Element.FirstEndTag name t body tag rest) :
    ofRawText (Text.fold name) t = ⟨rawTokens body ++ [.endTag (Text.fold name)], rest⟩ :=
  ofRawText_of_firstEndTag ⟨h.parts, Element.endTag_fold.2 h.endTag, fun u tag' v he ht =>
    h.leftmost u tag' v he (Element.endTag_fold.1 ht)⟩

/-- The start tag of a raw-text element is read with the raw text behind it. -/
theorem tokens_rawText (hr : Element.isRawText name = true)
    (hend : ∀ c ∈ (x ++ t).head?, Element.isNameChar c = false) (hx : Tag.Spells (x ++ t) ⟨as, false, t⟩) :
    SafeMarkup.tokens ('<' :: (name ++ (x ++ t))) = .startTag (Text.fold name) (Attribute.keepFirst as) false ::
      ((ofRawText (Text.fold name) t).tokens ++ SafeMarkup.tokens (ofRawText (Text.fold name) t).rest) := by
  have hread := read_of_spells (Element.isTagSpelling_of_isRawText hr) hend hx
  rw [tokens_cons, hread]
  simp [behindTag, Element.isVoid_of_isRawText hr, Element.isRawText_fold, hr]

/-- **A raw-text element holds its text as it is written, up to the leftmost end tag of its own.**  If `t` follows the
start tag, and `body` stands before the leftmost end tag and `rest` behind it, then the element's text is `body` and
reading goes on with `rest`; without an end tag the element's text is `t`, to the end.  No near match ends it. -/
theorem toTokens?_read_rawText (hr : Element.isRawText name = true)
    (hend : ∀ c ∈ (x ++ t).head?, Element.isNameChar c = false) (hx : Tag.Spells (x ++ t) ⟨as, false, t⟩) :
    (∀ body tag rest, Element.FirstEndTag name t body tag rest →
      (TokenStream.read ('<' :: (name ++ (x ++ t)))).toTokens? =
          some (.startTag (Text.fold name) (Attribute.keepFirst as) false ::
            (rawTokens body ++ .endTag (Text.fold name) :: SafeMarkup.tokens rest)) ∧
        ∀ u v, t = u ++ v → Element.NearMatch name v → u ≠ body) ∧
    (Element.HasEndTag name t → ∃ body tag rest, Element.FirstEndTag name t body tag rest) ∧
    (¬Element.HasEndTag name t →
      (TokenStream.read ('<' :: (name ++ (x ++ t)))).toTokens? =
        some (.startTag (Text.fold name) (Attribute.keepFirst as) false ::
          (rawTokens t ++ [.endTag (Text.fold name)]))) := by
  rw [TokenStream.toTokens?_read, tokens_rawText hr hend hx]
  refine ⟨fun body tag rest h => ⟨?_, ?_⟩, Element.exists_firstEndTag, fun h => ?_⟩
  · rw [ofRawText_fold_of_firstEndTag h, List.append_assoc]
    rfl
  · rintro u v ht hnear rfl
    rw [h.parts] at ht
    have hnone := hnear.afterEndTag? hr
    rw [← List.append_cancel_left ht, Element.afterEndTag?_eq_some_iff.2 ⟨tag, h.endTag, rfl⟩] at hnone
    cases hnone
  · rw [← Element.hasEndTag_fold] at h
    rw [ofRawText_of_not_hasEndTag h, tokens_nil, List.append_nil]

theorem toTokens?_read_rawText_near :
    (TokenStream.read "<Xmp a>&amp;</xmpq></xmp b></XMP >c".toList).toTokens? =
      some [.startTag ['x', 'm', 'p'] [⟨['a'], none⟩] false, .text "&amp;</xmpq></xmp b>".toList,
        .endTag ['x', 'm', 'p'], .text (Reference.decode ['c'])] := by
  have hspells : Tag.Spells ([' ', 'a', '>'] ++ "&amp;</xmpq></xmp b></XMP >c".toList)
      (.cons ⟨['a'], none⟩ ⟨[], false, "&amp;</xmpq></xmp b></XMP >c".toList⟩) :=
    .skip rfl (by decide) (by simp)
      (.cons (@Attribute.Spells.bare ['a'] _ rfl (by rintro c ⟨⟩; rfl) (by rintro ⟨⟩)) (.close _))
  have hinside : ∀ v ∈ "&amp;</xmpq></xmp b>".toList.tails, v ≠ [] →
      afterEndTag? ['X', 'm', 'p'] (v ++ ("</XMP >".toList ++ ['c'])) = none := by
    decide
  have hfirst : Element.FirstEndTag ['X', 'm', 'p'] "&amp;</xmpq></xmp b></XMP >c".toList
      "&amp;</xmpq></xmp b>".toList "</XMP >".toList ['c'] :=
    .of_inside ⟨['X', 'M', 'P'], [' '], rfl, by decide, rfl⟩ fun u c v h =>
      hinside (c :: v) ((List.mem_tails _ _).2 ⟨u, h.symm⟩) (List.cons_ne_nil c v)
  have hrest : SafeMarkup.tokens ['c'] = [.text (Reference.decode ['c'])] := by
    rw [tokens_cons]
    change _ ++ SafeMarkup.tokens [] = _
    rw [tokens_nil]
    rfl
  have h := ((toTokens?_read_rawText (by decide) (by rintro c ⟨⟩; rfl) hspells).1 _ _ _ hfirst).1
  rw [hrest] at h
  exact h

end Span
end SafeMarkup
