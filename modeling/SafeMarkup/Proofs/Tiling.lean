import SafeMarkup.Proofs.RawTextBodies
/-!
# A text as a row of spans

Each span that a text is read in is one of the constructs of markup, or a run of text between two of them (`IsSpan`),
which one it is depends on nothing before it, and nothing is left out or read twice: a text is the spans it is read in,
in a row, in one way only, and from every place where one of them ends it reads as it does on its own
(`TokenStream.exists_tiling`).
-/
namespace SafeMarkup

namespace Text

/-- How a construct ends: with its mark, or where the text ends. -/
def Closes (mark close behind : Text) : Prop := close = mark ∨ close = [] ∧ behind = []

variable {q : Char} {body close z w r : Text}

/-- A text is what stands before the first of a character, its end, and what is behind. -/
theorem exists_closes (q : Char) (t : Text) :
    ∃ body close z, t = body ++ (close ++ z) ∧ q ∉ body ∧ Closes [q] close z := by
  obtain ⟨v, hv, -, ⟨rfl, -⟩ | ⟨r, rfl, -⟩⟩ := upTo_cases q t
  · exact ⟨t, [], [], by simp, hv, .inr ⟨rfl, rfl⟩⟩
  · exact ⟨v, [q], r, rfl, hv, .inl rfl⟩

theorem Closes.split (h : Closes [q] close z) (hb : q ∉ body) :
    (body ++ (close ++ z)).takeWhile (· != q) = body ∧ (body ++ (close ++ z)).dropWhile (· != q) = close ++ z := by
  refine run_append (ne_of_forall_ne hb) fun c hc => ?_
  rcases h with rfl | ⟨rfl, rfl⟩
  · obtain rfl := Option.some.inj hc
    simp
  · cases hc

theorem Closes.drop (h : Closes [q] close z) : (close ++ z).drop 1 = z := by
  rcases h with rfl | ⟨rfl, rfl⟩ <;> rfl

/-- What does not hold the mark and begins a closed text, begins what stands before the mark. -/
theorem Closes.exists_append (h : Closes [q] close z) (hw : q ∉ w) (he : body ++ (close ++ z) = w ++ r) :
    ∃ s, body = w ++ s := by
  rcases h with rfl | ⟨rfl, rfl⟩
  · obtain ⟨s, hs, -⟩ := exists_append_of_notMem hw he
    exact ⟨s, hs⟩
  · exact ⟨r, by simpa using he⟩

end Text

/-- Where markup begins: at `<` before a letter, `!`, `?`, `/` and a letter, or `/>`. -/
inductive BeginsMarkup : Text → Prop where
  | startTag {c : Char} (hc : c.isAlpha = true) (z : Text) : BeginsMarkup ('<' :: c :: z)
  | declaration (z : Text) : BeginsMarkup ('<' :: '!' :: z)
  | instruction (z : Text) : BeginsMarkup ('<' :: '?' :: z)
  | endTag {c : Char} (hc : c.isAlpha = true) (z : Text) : BeginsMarkup ('<' :: '/' :: c :: z)
  | emptyEndTag (z : Text) : BeginsMarkup ('<' :: '/' :: '>' :: z)

theorem Span.opensMarkup_iff {t : Text} : opensMarkup t = true ↔ BeginsMarkup t := by
  constructor
  · intro h
    unfold opensMarkup at h
    split at h
    · simp only [Bool.or_eq_true, beq_iff_eq] at h
      rcases h with h | rfl
      · exact .endTag h _
      · exact .emptyEndTag _
    · simp only [Bool.or_eq_true, beq_iff_eq] at h
      obtain (h | rfl) | rfl := h
      · exact .startTag h _
      · exact .declaration _
      · exact .instruction _
    · cases h
  · intro h
    cases h with
    | startTag hc z => rw [opensMarkup_of_ne_slash (ne_of_isAlpha hc (by decide)), hc, Bool.true_or, Bool.true_or]
    | declaration z => rfl
    | instruction z => rfl
    | endTag hc z => rw [opensMarkup, hc, Bool.true_or]
    | emptyEndTag z => rfl

/-- The word `doctype`, in any case. -/
def IsDoctype (word : Text) : Prop := Text.sameFolded word ['d', 'o', 'c', 't', 'y', 'p', 'e'] = true

theorem IsDoctype.gt_notMem {word : Text} (h : IsDoctype word) : '>' ∉ word := fun hm =>
  absurd (Element.isNameChar_of_sameFolded (by decide) h _ hm) (by decide)

theorem IsDoctype.isPrefixOf {word : Text} (h : IsDoctype word) (z : Text) :
    ['-', '-'].isPrefixOf (word ++ z) = false := by
  rw [IsDoctype, Text.sameFolded_iff] at h
  cases word with
  | nil => cases h
  | cons c w =>
    have hc : c ≠ '-' := by
      rintro rfl
      exact absurd (List.cons.inj h).1 (by decide)
    rw [Bool.eq_false_iff, ne_eq, List.isPrefixOf_iff_prefix]
    rintro ⟨r, hr⟩
    exact hc (List.cons.inj hr).1.symm

/-- `Follows name inside as slashed z`: behind `<` and the whole name, `inside` is what stands of a tag, with `z` behind. -/
structure Tag.Follows (name inside : Text) (as : List (Attribute Text)) (slashed : Bool) (z : Text) : Prop where
  isName : Element.isTagSpelling name = true
  ends : ∀ c ∈ (inside ++ z).head?, Element.isNameChar c = false
  spells : Tag.Spells (inside ++ z) ⟨as, slashed, z⟩

/-- `IsSpan x z ts`: the text `x`, with `z` behind it, is one span, and `ts` is what it gives. -/
inductive IsSpan : Text → Text → List (Token Text) → Prop where
  /-- A run of text holds no place where markup begins, and is as long as it can be. -/
  | run {x z : Text} (hx : x ≠ []) (hin : ∀ u c v, x = u ++ c :: v → ¬BeginsMarkup (c :: v ++ z))
      (hz : z = [] ∨ BeginsMarkup z) : IsSpan x z [.text (Reference.decode x)]
  | comment {body close z : Text} (hb : ¬['-', '-', '>'] <:+: body) (hc : Text.Closes ['-', '-', '>'] close z) :
      IsSpan ('<' :: '!' :: '-' :: '-' :: (body ++ close)) z [.comment body]
  | doctype {word body : Text} (z : Text) (hw : IsDoctype word) (hb : '>' ∉ body) :
      IsSpan ('<' :: '!' :: (word ++ (body ++ ['>']))) z [.doctype (Text.trim (word ++ body))]
  | cutDoctype {word body : Text} (hw : IsDoctype word) (hb : '>' ∉ body) : IsSpan ('<' :: '!' :: (word ++ body)) [] []
  /-- Another declaration is a comment. -/
  | declaration {body close z : Text} (hd : ∀ v, body ≠ '-' :: '-' :: v)
      (hw : ∀ word v, body = word ++ v → ¬IsDoctype word)
      (hb : '>' ∉ body) (hc : Text.Closes ['>'] close z) : IsSpan ('<' :: '!' :: (body ++ close)) z [.comment body]
  | instruction {body close z : Text} (hb : '>' ∉ body) (hc : Text.Closes ['>'] close z) :
      IsSpan ('<' :: '?' :: (body ++ close)) z [.comment ('?' :: body)]
  | endTag {name junk close z : Text} (hn : Element.isTagSpelling name = true)
      (hend : ∀ c ∈ junk.head?, Element.isNameChar c = false) (hj : '>' ∉ junk) (hc : Text.Closes ['>'] close z) :
      IsSpan ('<' :: '/' :: (name ++ (junk ++ close))) z [.endTag (Text.fold name)]
  | emptyEndTag (z : Text) : IsSpan ['<', '/', '>'] z []
  | startTag {name inside z : Text} {as : List (Attribute Text)} {slashed : Bool}
      (h : Tag.Follows name inside as slashed z)
      (hc : (slashed || Element.isVoid (Text.fold name)) = true ∨ Element.isRawText name = false) :
      IsSpan ('<' :: (name ++ inside)) z
        [.startTag (Text.fold name) (Attribute.keepFirst as) (slashed || Element.isVoid (Text.fold name))]
  | rawText {name inside body tag z : Text} {as : List (Attribute Text)} (hr : Element.isRawText name = true)
      (h : Tag.Follows name inside as false (body ++ (tag ++ z)))
      (hf : Element.FirstEndTag name (body ++ (tag ++ z)) body tag z) :
      IsSpan ('<' :: (name ++ (inside ++ (body ++ tag)))) z
        (.startTag (Text.fold name) (Attribute.keepFirst as) false ::
          (Span.rawTokens body ++ [.endTag (Text.fold name)]))
  | cutRawText {name inside body : Text} {as : List (Attribute Text)} (hr : Element.isRawText name = true)
      (h : Tag.Follows name inside as false body) (hb : ¬Element.HasEndTag name body) :
      IsSpan ('<' :: (name ++ (inside ++ body))) []
        (.startTag (Text.fold name) (Attribute.keepFirst as) false ::
          (Span.rawTokens body ++ [.endTag (Text.fold name)]))

namespace Span

variable {x z t name inside body close : Text} {ts : List (Token Text)} {as : List (Attribute Text)} {slashed : Bool}

/-! ## Each construct is read as one span -/

theorem read_of_beginsMarkup (h : BeginsMarkup t) : read t = ofMarkup (t.drop 1) := by
  rw [read, opensMarkup_iff.2 h, if_pos rfl]

theorem read_run (hx : x ≠ []) (hin : ∀ u c v, x = u ++ c :: v → ¬BeginsMarkup (c :: v ++ z))
    (hz : z = [] ∨ BeginsMarkup z) : read (x ++ z) = ⟨[.text (Reference.decode x)], z⟩ := by
  obtain ⟨c, s, rfl⟩ := List.exists_cons_of_ne_nil hx
  have hnot : ∀ u d v, c :: s = u ++ d :: v → opensMarkup (d :: v ++ z) = false := fun u d v h => by
    rw [← Bool.not_eq_true, opensMarkup_iff]
    exact hin u d v h
  have hcut : Text.cutAt opensMarkup (s ++ z) = (s, z) :=
    Text.cutAt_eq_of (fun u d v h => hnot (c :: u) d v (congrArg (c :: ·) h)) (hz.imp_right opensMarkup_iff.2)
  rw [read, hnot [] c s rfl, if_neg (by decide), List.cons_append, ofRun, hcut]

theorem ofComment_closes (hb : ¬['-', '-', '>'] <:+: body) (hc : Text.Closes ['-', '-', '>'] close z) :
    ofComment (body ++ (close ++ z)) = ⟨[.comment body], z⟩ := by
  have hcut : Text.cutAt (['-', '-', '>'].isPrefixOf ·) (body ++ (close ++ z)) = (body, close ++ z) := by
    rcases hc with rfl | ⟨rfl, rfl⟩
    · exact Text.cutAt_eq_of (fun u c v h => commentEnd_isPrefixOf hb h) (.inr rfl)
    · refine Text.cutAt_eq_of ?_ (.inl rfl)
      rintro u c v rfl
      rw [Bool.eq_false_iff, ne_eq, List.isPrefixOf_iff_prefix]
      rintro ⟨r, hr⟩
      exact hb ⟨u, r, by rw [List.append_assoc, hr]; simp⟩
  rw [ofComment, hcut]
  rcases hc with rfl | ⟨rfl, rfl⟩ <;> rfl

theorem ofBogus_closes (hb : '>' ∉ body) (hc : Text.Closes ['>'] close z) :
    ofBogus (body ++ (close ++ z)) = ⟨[.comment body], z⟩ := by
  rw [ofBogus, (hc.split hb).1, (hc.split hb).2, hc.drop]

theorem ofDeclaration_closes (hd : ∀ v, body ≠ '-' :: '-' :: v)
    (hw : ∀ word v, body = word ++ v → ¬IsDoctype word)
    (hb : '>' ∉ body) (hc : Text.Closes ['>'] close z) :
    ofDeclaration (body ++ (close ++ z)) = ⟨[.comment body], z⟩ := by
  have hcomment : ['-', '-'].isPrefixOf (body ++ (close ++ z)) = false := by
    rw [Bool.eq_false_iff, ne_eq, List.isPrefixOf_iff_prefix]
    rintro ⟨r, hr⟩
    obtain ⟨s, hs⟩ := hc.exists_append (by decide) hr.symm
    exact hd s hs
  have hdoctype : Text.afterFolded? ['d', 'o', 'c', 't', 'y', 'p', 'e'] (body ++ (close ++ z)) = none := by
    rw [Option.eq_none_iff_forall_not_mem]
    intro r hr
    obtain ⟨word, hword, he⟩ := Text.afterFolded?_eq_some_iff.1 hr
    obtain ⟨s, hs⟩ := hc.exists_append (IsDoctype.gt_notMem hword) he
    exact hw word s hs hword
  rw [ofDeclaration_of_not_comment hcomment, hdoctype, if_neg (by simp), ofBogus_closes hb hc]

theorem ofDeclaration_doctype {word : Text} (hw : IsDoctype word) (hb : '>' ∉ body) (hc : Text.Closes ['>'] close z) :
    ofDeclaration (word ++ (body ++ (close ++ z))) =
      ⟨if close.isEmpty then [] else [.doctype (Text.trim (word ++ body))], z⟩ := by
  have hword : Text.afterFolded? ['d', 'o', 'c', 't', 'y', 'p', 'e'] (word ++ (body ++ (close ++ z))) =
      some (body ++ (close ++ z)) := Text.afterFolded?_eq_some_iff.2 ⟨word, hw, rfl⟩
  have hbody : '>' ∉ word ++ body := by
    rw [List.mem_append, not_or]
    exact ⟨hw.gt_notMem, hb⟩
  rw [ofDeclaration_of_not_comment (hw.isPrefixOf _), hword, Option.isSome_some, if_pos rfl, ofDoctype_eq,
    ← List.append_assoc, (hc.split hbody).1, (hc.split hbody).2, hc.drop]
  rcases hc with rfl | ⟨rfl, rfl⟩ <;> rfl

theorem ofEndTag_closes (hn : ∀ c ∈ name, Element.isNameChar c = true) {junk : Text}
    (hend : ∀ c ∈ junk.head?, Element.isNameChar c = false) (hj : '>' ∉ junk) (hc : Text.Closes ['>'] close z) :
    ofEndTag (name ++ (junk ++ (close ++ z))) = ⟨if name.isEmpty then [] else [.endTag (Text.fold name)], z⟩ := by
  have hbody : '>' ∉ name ++ junk := by
    rw [List.mem_append, not_or]
    exact ⟨fun hm => absurd (hn _ hm) (by decide), hj⟩
  have hname : (name ++ (junk ++ (close ++ z))).takeWhile Element.isNameChar = name := by
    refine (Text.run_append hn fun c hd => ?_).1
    cases junk with
    | nil =>
      rcases hc with rfl | ⟨rfl, rfl⟩
      · obtain rfl := Option.some.inj hd
        decide
      · cases hd
    | cons d junk => exact hend c hd
  rw [ofEndTag, hname, ← List.append_assoc, (hc.split hbody).2, hc.drop]

theorem read_startTag (h : Tag.Follows name inside as slashed z) :
    read ('<' :: (name ++ (inside ++ z))) =
      let selfClosing := slashed || Element.isVoid (Text.fold name)
      let behind := behindTag (Text.fold name) selfClosing z
      ⟨.startTag (Text.fold name) (Attribute.keepFirst as) selfClosing :: behind.tokens, behind.rest⟩ :=
  read_of_spells h.isName h.ends h.spells

theorem behindTag_of_closed {selfClosing : Bool} (h : selfClosing = true ∨ Element.isRawText name = false) (z : Text) :
    behindTag (Text.fold name) selfClosing z = ⟨[], z⟩ := by
  rw [behindTag, Element.isRawText_fold]
  rcases h with h | h <;> simp [h]

theorem read_rawText (hr : Element.isRawText name = true) (h : Tag.Follows name inside as false t) :
    read ('<' :: (name ++ (inside ++ t))) = ⟨.startTag (Text.fold name) (Attribute.keepFirst as) false ::
      (ofRawText (Text.fold name) t).tokens, (ofRawText (Text.fold name) t).rest⟩ := by
  rw [read_startTag h, Element.isVoid_of_isRawText hr]
  simp [behindTag, Element.isRawText_fold, hr]

end Span

/-- **A construct is read as one span**, whatever is behind it. -/
theorem IsSpan.read {x z : Text} {ts : List (Token Text)} (h : IsSpan x z ts) : Span.read (x ++ z) = ⟨ts, z⟩ := by
  cases h with
  | run hx hin hz => exact Span.read_run hx hin hz
  | @comment body close _ hb hc =>
    rw [← Span.ofComment_closes hb hc, ← List.append_assoc]
    exact Span.read_of_beginsMarkup (.declaration _)
  | @doctype word body z hw hb =>
    refine (Span.read_of_beginsMarkup (.declaration _)).trans ((congrArg Span.ofDeclaration ?_).trans
      (Span.ofDeclaration_doctype hw hb (.inl rfl)))
    simp
  | @cutDoctype word body hw hb =>
    refine (Span.read_of_beginsMarkup (.declaration _)).trans ((congrArg Span.ofDeclaration ?_).trans
      (Span.ofDeclaration_doctype hw hb (.inr ⟨rfl, rfl⟩)))
    simp
  | declaration hd hw hb hc =>
    rw [← Span.ofDeclaration_closes hd hw hb hc, ← List.append_assoc]
    exact Span.read_of_beginsMarkup (.declaration _)
  | @instruction body close z hb hc =>
    have hmark : '>' ∉ '?' :: body := by simpa using hb
    rw [← Span.ofBogus_closes hmark hc]
    refine (Span.read_of_beginsMarkup (.instruction _)).trans ?_
    simp [Span.ofMarkup]
  | @endTag name junk close z hn hend hj hc =>
    obtain ⟨c, n, rfl, halpha, -⟩ := Element.isTagSpelling_iff.1 hn
    have hread := Span.ofEndTag_closes (Element.isNameChar_of_isTagSpelling hn) hend hj hc
    refine (Span.read_of_beginsMarkup (.endTag halpha _)).trans (Eq.trans ?_ hread)
    simp [Span.ofMarkup]
  | emptyEndTag z =>
    exact @Span.ofEndTag_closes z [] ['>'] (by simp) [] (by simp) (by simp) (.inl rfl)
  | @startTag name inside z as slashed h hc =>
    have hread := Span.read_startTag h
    simp only [Span.behindTag_of_closed hc] at hread
    simpa using hread
  | @rawText name inside body tag z as hr h hf =>
    have hraw := Span.read_rawText hr h
    rw [Span.ofRawText_fold_of_firstEndTag hf] at hraw
    simpa using hraw
  | @cutRawText name inside body as hr h hb =>
    have hraw := Span.read_rawText hr h
    rw [Span.ofRawText_of_not_hasEndTag (mt Element.hasEndTag_fold.1 hb)] at hraw
    simpa using hraw

/-! ## Every text begins with a construct -/

section

variable {z t : Text}

/-- A text begins with a span. -/
def HasSpan (t : Text) : Prop := ∃ x z ts, t = x ++ z ∧ IsSpan x z ts

theorem hasSpan_run (ht : t ≠ []) (h : ¬BeginsMarkup t) : HasSpan t := by
  obtain ⟨c, t, rfl⟩ := List.exists_cons_of_ne_nil ht
  obtain ⟨s, z, rfl, hin, hz⟩ := Text.exists_cutAt Span.opensMarkup t
  refine ⟨c :: s, z, _, rfl, .run (List.cons_ne_nil _ _) (fun u d v he => ?_) (hz.imp_right Span.opensMarkup_iff.1)⟩
  cases u with
  | nil =>
    obtain ⟨rfl, rfl⟩ := List.cons.inj he
    exact h
  | cons e u =>
    rw [← Span.opensMarkup_iff, hin u d v (List.cons.inj he).2]
    decide

theorem hasSpan_comment (t : Text) : HasSpan ('<' :: '!' :: '-' :: '-' :: t) := by
  obtain ⟨body, z, rfl, hin, hz⟩ := Text.exists_cutAt (['-', '-', '>'].isPrefixOf ·) t
  have hb : ¬['-', '-', '>'] <:+: body := by
    rintro ⟨u, v, he⟩
    rw [List.append_assoc] at he
    exact absurd (hin u '-' ('-' :: '>' :: v) he.symm) (by simp)
  rcases hz with rfl | hz
  · exact ⟨_, [], _, by simp, .comment hb (.inr ⟨rfl, rfl⟩)⟩
  · obtain ⟨z, rfl⟩ := List.isPrefixOf_iff_prefix.1 hz
    exact ⟨_, z, _, by simp, .comment hb (.inl rfl)⟩

theorem hasSpan_doctype {word : Text} (hw : IsDoctype word) (t : Text) : HasSpan ('<' :: '!' :: (word ++ t)) := by
  obtain ⟨body, close, z, rfl, hb, rfl | ⟨rfl, rfl⟩⟩ := Text.exists_closes '>' t
  · exact ⟨_, z, _, by simp, .doctype z hw hb⟩
  · exact ⟨_, [], _, by simp, .cutDoctype hw hb⟩

theorem hasSpan_declaration (t : Text) : HasSpan ('<' :: '!' :: t) := by
  by_cases hd : ∃ v, t = '-' :: '-' :: v
  · obtain ⟨v, rfl⟩ := hd
    exact hasSpan_comment v
  by_cases hw : ∃ word v, t = word ++ v ∧ IsDoctype word
  · obtain ⟨word, v, rfl, hw⟩ := hw
    exact hasSpan_doctype hw v
  obtain ⟨body, close, z, rfl, hb, hc⟩ := Text.exists_closes '>' t
  refine ⟨_, z, _, by simp, .declaration ?_ ?_ hb hc⟩
  · rintro v rfl
    exact hd ⟨v ++ (close ++ z), rfl⟩
  · rintro word v rfl h
    exact hw ⟨word, v ++ (close ++ z), by simp, h⟩

theorem hasSpan_instruction (t : Text) : HasSpan ('<' :: '?' :: t) := by
  obtain ⟨body, close, z, rfl, hb, hc⟩ := Text.exists_closes '>' t
  exact ⟨_, z, _, by simp, .instruction hb hc⟩

/-- A letter begins a name, and the name ends where its characters do. -/
theorem exists_name {c : Char} (hc : c.isAlpha = true) (t : Text) : ∃ name r, c :: t = name ++ r ∧
    Element.isTagSpelling name = true ∧ ∀ d ∈ r.head?, Element.isNameChar d = false := by
  refine ⟨c :: t.takeWhile Element.isNameChar, t.dropWhile Element.isNameChar, ?_, ?_, fun d hd => ?_⟩
  · rw [List.cons_append, List.takeWhile_append_dropWhile]
  · exact Element.isTagSpelling_iff.2 ⟨c, _, rfl, hc, fun d hd => List.mem_takeWhile_imp hd⟩
  · have hstop := List.head?_dropWhile_not Element.isNameChar t
    rw [Option.mem_def.1 hd] at hstop
    exact by simpa using hstop

theorem hasSpan_endTag {c : Char} (hc : c.isAlpha = true) (t : Text) : HasSpan ('<' :: '/' :: c :: t) := by
  obtain ⟨name, r, he, hn, hend⟩ := exists_name hc t
  obtain ⟨junk, close, z, rfl, hj, hclose⟩ := Text.exists_closes '>' r
  refine ⟨_, z, _, by simp [he], .endTag hn (fun d hd => hend d ?_) hj hclose⟩
  cases junk with
  | nil => cases hd
  | cons e junk => exact hd

theorem hasSpan_startTag {c : Char} (hc : c.isAlpha = true) (t : Text) : HasSpan ('<' :: c :: t) := by
  obtain ⟨name, r, he, hn, hend⟩ := exists_name hc t
  obtain ⟨inside, hr, -⟩ := Span.exists_seam (Tag.readAll_endsTag r)
  have hspells := Tag.spells_readAll r
  generalize Tag.readAll r = g at hr hspells
  subst hr
  obtain ⟨as, slashed, z⟩ := g
  have hf : Tag.Follows name inside as slashed z := ⟨hn, hend, hspells⟩
  rw [he]
  by_cases hclosed : (slashed || Element.isVoid (Text.fold name)) = true ∨ Element.isRawText name = false
  · exact ⟨_, z, _, by simp, .startTag hf hclosed⟩
  simp only [Bool.or_eq_true, not_or, Bool.not_eq_true, Bool.not_eq_false] at hclosed
  obtain ⟨⟨rfl, -⟩, hraw⟩ := hclosed
  by_cases hends : Element.HasEndTag name z
  · obtain ⟨body, tag, rest, hfirst⟩ := Element.exists_firstEndTag hends
    obtain rfl := hfirst.parts
    exact ⟨_, rest, _, by simp, .rawText hraw hf hfirst⟩
  · exact ⟨_, [], _, by simp, .cutRawText hraw hf hends⟩

theorem hasSpan (ht : t ≠ []) : HasSpan t := by
  by_cases h : BeginsMarkup t
  · cases h with
    | startTag hc z => exact hasSpan_startTag hc z
    | declaration z => exact hasSpan_declaration z
    | instruction z => exact hasSpan_instruction z
    | endTag hc z => exact hasSpan_endTag hc z
    | emptyEndTag z => exact ⟨_, z, _, rfl, .emptyEndTag z⟩
  · exact hasSpan_run ht h

end

/-! ## Rows of spans -/

theorem IsSpan.ne_nil {x z : Text} {ts : List (Token Text)} (h : IsSpan x z ts) : x ≠ [] := by
  cases h with
  | run hx => exact hx
  | _ => exact List.cons_ne_nil _ _

/-- A piece of a text and the tokens it gives. -/
@[ext]
structure Tile where
  text : Text
  tokens : List (Token Text)

namespace Tile

/-- The text that tiles are pieces of. -/
def source (tiles : List Tile) : Text := tiles.flatMap text

/-- `Tiling tiles`: each tile is one span where it stands. -/
inductive Tiling : List Tile → Prop where
  | nil : Tiling []
  | cons {tile : Tile} {tiles : List Tile} (h : IsSpan tile.text (source tiles) tile.tokens) (hs : Tiling tiles) :
      Tiling (tile :: tiles)

theorem source_cons (tile : Tile) (tiles : List Tile) : source (tile :: tiles) = tile.text ++ source tiles :=
  List.flatMap_cons

theorem exists_tiles (t : Text) : ∃ tiles, Tiling tiles ∧ source tiles = t := by
  induction h : t.length using Nat.strong_induction_on generalizing t with
  | _ n ih =>
    by_cases ht : t = []
    · exact ⟨[], .nil, ht.symm⟩
    · obtain ⟨x, z, ts, rfl, hx⟩ := hasSpan ht
      have hlt : z.length < n := by
        have := List.length_pos_iff.2 hx.ne_nil
        rw [List.length_append] at h
        omega
      obtain ⟨tiles, hs, rfl⟩ := ih _ hlt z rfl
      exact ⟨⟨x, ts⟩ :: tiles, .cons hx hs, rfl⟩

variable {tiles others before after : List Tile}

theorem Tiling.ne_nil (h : Tiling tiles) : ∀ tile ∈ tiles, tile.text ≠ [] := by
  induction h with
  | nil => simp
  | cons h _ ih => exact List.forall_mem_cons.2 ⟨h.ne_nil, ih⟩

theorem Tiling.of_append (h : Tiling (before ++ after)) : Tiling after := by
  induction before with
  | nil => exact h
  | cons tile before ih =>
    cases h with
    | cons _ hs => exact ih hs

/-- **The tokens of a text are those of its spans.** -/
theorem Tiling.tokens_source (h : Tiling tiles) : SafeMarkup.tokens (source tiles) = tiles.flatMap tokens := by
  induction h with
  | nil => exact tokens_nil
  | @cons tile tiles h _ ih =>
    obtain ⟨c, t, ht⟩ := List.exists_cons_of_ne_nil h.ne_nil
    have hread := h.read
    rw [source_cons, List.flatMap_cons]
    rw [ht, List.cons_append] at hread ⊢
    rw [tokens_cons, hread, ih]

/-- **A text is a row of spans in one way only.** -/
theorem Tiling.unique (h : Tiling tiles) : ∀ {others : List Tile}, Tiling others → source others = source tiles →
    others = tiles := by
  induction h with
  | nil =>
    intro others ho he
    cases ho with
    | nil => rfl
    | cons h _ => exact absurd (List.append_eq_nil_iff.1 he).1 h.ne_nil
  | @cons tile tiles h _ ih =>
    intro others ho he
    cases ho with
    | nil => exact absurd (List.append_eq_nil_iff.1 he.symm).1 h.ne_nil
    | @cons other others h' hs' =>
      rw [source_cons, source_cons] at he
      have hread := h'.read
      rw [he, h.read] at hread
      obtain ⟨htokens, hrest⟩ := Span.mk.inj hread
      obtain rfl := ih hs' hrest.symm
      rw [Tile.ext (List.append_cancel_right he) htokens.symm]

end Tile

/-- **A text is a row of spans, and reading it is reading them.**  Markup begins exactly where `BeginsMarkup` says; there
is one way to cut the text into spans, none of them empty, and from each place between two of them on, the text reads
as it would alone: as the tokens of the spans from there on. -/
theorem TokenStream.exists_tiling (t : Text) :
    (∀ u, Span.opensMarkup u = true ↔ BeginsMarkup u) ∧
    ∃ tiles, Tile.Tiling tiles ∧ Tile.source tiles = t ∧ (∀ tile ∈ tiles, tile.text ≠ []) ∧
      (∀ others, Tile.Tiling others → Tile.source others = t → others = tiles) ∧
      ∀ before after, tiles = before ++ after →
        (TokenStream.read (Tile.source after)).toTokens? = some (after.flatMap Tile.tokens) := by
  refine ⟨fun u => Span.opensMarkup_iff, ?_⟩
  obtain ⟨tiles, h, rfl⟩ := Tile.exists_tiles t
  refine ⟨tiles, h, rfl, h.ne_nil, fun others ho he => h.unique ho he, ?_⟩
  rintro before after rfl
  rw [TokenStream.toTokens?_read, h.of_append.tokens_source]

end SafeMarkup
