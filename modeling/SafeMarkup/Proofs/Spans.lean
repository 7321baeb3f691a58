import SafeMarkup.Proofs.Scanning
/-!
# What a span takes and gives

Each span takes a first part of the text that ends where nothing is cut through (`Span.Seam`), and gives a text, or
nothing, or one sound token, or a raw-text element as a whole (`Span.Gives`).  `Span.read_gives` says so of every text.
-/
namespace SafeMarkup

namespace Element

theorem isNameChar_toLower {c : Char} (h : isNameChar c = true) : isNameChar c.toLower = true := by
  simp only [isNameChar, Char.isAlphanum, Bool.or_eq_true, beq_iff_eq] at h ⊢
  obtain (((h | h) | rfl) | rfl) | rfl := h
  · exact .inl (.inl (.inl (.inl (by simpa using h))))
  · refine .inl (.inl (.inl (.inr ?_)))
    rw [Char.toLower_eq_of_not_isUpper]
    · exact h
    · intro hu
      simp only [Char.isDigit, Char.isUpper, Bool.and_eq_true, decide_eq_true_eq] at h hu
      exact absurd (UInt32.le_trans hu.1 h.2) (by decide)
  · decide
  · decide
  · decide

theorem isAttributeChar_of_isLower {c : Char} (h : c.isLower = true) : isAttributeChar c = true := by
  have hne : ∀ d : Char, d.isLower = false → (c == d) = false := fun d hd => by
    rw [beq_eq_false_iff_ne]
    rintro rfl
    rw [h] at hd
    cases hd
  simp only [isAttributeChar, Text.isBlank, bne, hne ' ' (by decide), hne '\t' (by decide), hne '\n' (by decide),
    hne '\x0c' (by decide), hne '\r' (by decide), hne '/' (by decide), hne '>' (by decide), hne '=' (by decide),
    hne '<' (by decide), hne '"' (by decide), hne '\'' (by decide)]
  rfl

theorem isAttributeChar_toLower {c : Char} (h : isAttributeChar c = true) : isAttributeChar c.toLower = true := by
  by_cases hu : c.isUpper = true
  · exact isAttributeChar_of_isLower (by simp [Char.isAlpha, hu])
  · rwa [Char.toLower_eq_of_not_isUpper hu]

theorem isName_fold {c : Char} (hc : c.isAlpha = true) (t : Text) :
    isName (Text.fold ((c :: t).takeWhile isNameChar)) = true := by
  have hn : isNameChar c = true := by simp [isNameChar, Char.isAlphanum, hc]
  rw [List.takeWhile_cons_of_pos hn]
  refine isName_iff.2 ⟨_, _, rfl, by simpa using hc, fun d hd => ?_⟩
  obtain ⟨e, he, rfl⟩ := List.mem_map.1 hd
  exact ⟨isNameChar_toLower (List.mem_takeWhile_imp he), Char.isUpper_toLower_eq_false e⟩

theorem isAttributeName_fold {c : Char} (hc : isAttributeChar c = true) (t : Text) :
    isAttributeName (Text.fold ((c :: t).takeWhile isAttributeChar)) = true := by
  rw [List.takeWhile_cons_of_pos hc]
  refine isAttributeName_iff.2 ⟨List.cons_ne_nil _ _, List.forall_mem_cons.2
    ⟨⟨isAttributeChar_toLower hc, Char.isUpper_toLower_eq_false c⟩, fun d hd => ?_⟩⟩
  obtain ⟨e, he, rfl⟩ := List.mem_map.1 hd
  exact ⟨isAttributeChar_toLower (List.mem_takeWhile_imp he), Char.isUpper_toLower_eq_false e⟩

end Element

namespace Text

theorem cutAt_fst_of_eq {p : Text → Bool} {c : Char} {v : Text} : ∀ {t u : Text}, (cutAt p t).1 = u ++ c :: v →
    p (c :: v ++ (cutAt p t).2) = false
  | [], u, h => by cases u <;> cases h
  | d :: t, u, h => by
    by_cases hp : p (d :: t) = true
    · rw [cutAt_of_pos hp] at h
      cases u <;> cases h
    · have hp : p (d :: t) = false := by simpa using hp
      rw [cutAt_of_neg hp] at h ⊢
      cases u with
      | nil =>
        obtain ⟨rfl, rfl⟩ := List.cons.inj h
        rw [List.cons_append, cutAt_append]
        exact hp
      | cons e u => exact cutAt_fst_of_eq (List.cons.inj h).2

/-- What follows the end of a tag: nothing, or what stands behind `>`. -/
def EndsTag (t rest : Text) : Prop := rest = [] ∨ ∃ u, t = u ++ '>' :: rest

theorem EndsTag.of_suffix {s t rest : Text} (hs : s <:+ t) (h : EndsTag s rest) : EndsTag t rest := by
  obtain ⟨v, rfl⟩ := hs
  rcases h with h | ⟨u, rfl⟩
  · exact .inl h
  · exact .inr ⟨v ++ u, by simp⟩

theorem endsTag_dropWhile (t : Text) : EndsTag t ((t.dropWhile (· != '>')).drop 1) := by
  cases h : t.dropWhile (· != '>') with
  | nil => exact .inl rfl
  | cons c r =>
    have hc := List.head_dropWhile_not (· != '>') (l := t) (by simp [h])
    simp only [h, List.head_cons, bne_eq_false_iff_eq] at hc
    subst hc
    refine .inr ⟨t.takeWhile (· != '>'), ?_⟩
    rw [List.drop_one, List.tail_cons, ← h, List.takeWhile_append_dropWhile]

end Text

namespace Attribute

theorem readValue_suffix (t : Text) : (readValue t).2 <:+ t := by
  have hs : Text.skipBlanks t <:+ t := List.dropWhile_suffix _
  unfold readValue
  split
  · rename_i r h
    rw [h] at hs
    exact ((List.drop_suffix 1 _).trans (List.dropWhile_suffix _)).trans ((List.suffix_cons _ r).trans hs)
  · rename_i r h
    rw [h] at hs
    exact ((List.drop_suffix 1 _).trans (List.dropWhile_suffix _)).trans ((List.suffix_cons _ r).trans hs)
  · exact List.IsSuffix.trans ⟨_, Text.cutAt_append _ _⟩ hs

theorem read_suffix (t : Text) : (read t).2 <:+ t := by
  have hs : Text.skipBlanks (t.dropWhile Element.isAttributeChar) <:+ t :=
    (List.dropWhile_suffix _).trans (List.dropWhile_suffix _)
  unfold read
  simp only
  split
  · rename_i r h
    rw [h] at hs
    exact (readValue_suffix r).trans ((List.suffix_cons _ r).trans hs)
  · exact hs

theorem read_name (t : Text) : (read t).1.name = Text.fold (t.takeWhile Element.isAttributeChar) := by
  unfold read
  simp only
  split <;> rfl

theorem mem_of_mem_keepFirst {a : Attribute Text} : ∀ {as : List (Attribute Text)}, a ∈ keepFirst as → a ∈ as
  | b :: as, h => by
    rw [keepFirst] at h
    rcases List.mem_cons.1 h with rfl | h
    · exact List.mem_cons_self ..
    · exact List.mem_cons_of_mem _ (mem_of_mem_keepFirst (List.mem_filter.1 h).1)

theorem nodup_keepFirst : ∀ as : List (Attribute Text), ((keepFirst as).map (·.name)).Nodup
  | [] => List.nodup_nil
  | a :: as => by
    rw [keepFirst, List.map_cons, List.nodup_cons]
    constructor
    · intro h
      obtain ⟨b, hb, he⟩ := List.mem_map.1 h
      exact absurd he (by simpa using (List.mem_filter.1 hb).2)
    · exact (nodup_keepFirst as).sublist (List.filter_sublist.map _)

end Attribute

namespace Tag

theorem readAll_endsTag (t : Text) : Text.EndsTag t (readAll t).rest := by
  fun_induction readAll t with
  | case1 => exact .inl rfl
  | case2 t r h => exact .inr ⟨t.takeWhile Text.isBlank, by rw [← h, Text.skipBlanks, List.takeWhile_append_dropWhile]⟩
  | case3 t r h =>
    exact .inr ⟨t.takeWhile Text.isBlank ++ ['/'], by
      rw [List.append_assoc, List.singleton_append, ← h, Text.skipBlanks, List.takeWhile_append_dropWhile]⟩
  | case4 t c r _ _ h hc a ih =>
    exact ih.of_suffix ((Attribute.read_suffix (c :: r)).trans (h ▸ List.dropWhile_suffix _))
  | case5 t c r _ _ h _ ih => exact ih.of_suffix ((List.suffix_cons c r).trans (h ▸ List.dropWhile_suffix _))

theorem readAll_names (t : Text) : ∀ a ∈ (readAll t).attributes, Element.isAttributeName a.name = true := by
  fun_induction readAll t with
  | case1 => simp
  | case2 => simp
  | case3 => simp
  | case4 t c r _ _ h hc a ih =>
    refine List.forall_mem_cons.2 ⟨?_, ih⟩
    rw [Attribute.read_name]
    exact Element.isAttributeName_fold hc r
  | case5 t c r _ _ h _ ih => exact ih

theorem read_names (t : Text) : ∀ a ∈ (read t).attributes, Element.isAttributeName a.name = true :=
  fun a ha => readAll_names t a (Attribute.mem_of_mem_keepFirst ha)

end Tag

namespace Span

/-- Where a text may be cut between two spans: at its end, before `<` and behind `>`. -/
def Seam (x y : Text) : Prop := y = [] ∨ (∃ z, y = '<' :: z) ∨ ∃ u, x = u ++ ['>']

theorem exists_seam {t rest : Text} (h : Text.EndsTag t rest) : ∃ x, t = x ++ rest ∧ Seam x rest := by
  rcases h with rfl | ⟨u, rfl⟩
  · exact ⟨t, by simp, .inl rfl⟩
  · exact ⟨u ++ ['>'], by simp, .inr (.inr ⟨u, rfl⟩)⟩

theorem Seam.of_append {x y z : Text} (h : Seam x (y ++ z)) : Seam x y := by
  cases y with
  | nil => exact .inl rfl
  | cons c y =>
    rcases h with h | ⟨r, h⟩ | h
    · cases h
    · exact .inr (.inl ⟨y, by rw [(List.cons.inj h).1]⟩)
    · exact .inr (.inr h)

theorem Seam.of_append_left {s x y : Text} (h : Seam (s ++ x) y) : x = [] ∨ Seam x y := by
  rcases List.eq_nil_or_concat' x with hx | ⟨t, d, hx⟩
  · exact .inl hx
  · refine .inr ?_
    rcases h with h | h | ⟨u, h⟩
    · exact .inl h
    · exact .inr (.inl h)
    · rw [hx, ← List.append_assoc] at h
      obtain ⟨-, hd⟩ := List.append_inj' h rfl
      exact .inr (.inr ⟨t, hx.trans (by rw [hd])⟩)

/-- What a span that takes `x` gives. -/
inductive Gives (x : Text) : List (Token Text) → Prop where
  | run : Gives x [.text (Reference.decode x)]
  | nothing : Gives x []
  | doctype (t : Text) : Gives x [.doctype t]
  | comment {t : Text} (h : ¬['-', '-', '>'] <:+: t) : Gives x [.comment t]
  | endTag (name : Text) : Gives x [.endTag name]
  | startTag {name : Text} {as : List (Attribute Text)} {selfClosing : Bool} (hn : Element.isName name = true)
      (ha : ∀ a ∈ as, Element.isAttributeName a.name = true) (hd : (as.map (·.name)).Nodup)
      (hv : Element.isVoid name = true → selfClosing = true) (hr : Element.isRawText name = true → selfClosing = true) :
      Gives x [.startTag name as selfClosing]
  | rawText {name : Text} {as : List (Attribute Text)} {u t v : Text} (hn : Element.isName name = true)
      (ha : ∀ a ∈ as, Element.isAttributeName a.name = true) (hd : (as.map (·.name)).Nodup)
      (hv : Element.isVoid name = false) (ht : ¬Element.HasEndTag name t) (hx : x = u ++ t ++ v)
      (hu : Seam u (t ++ v)) (hs : Seam t v) :
      Gives x (.startTag name as false :: if t.isEmpty then [.endTag name] else [.text t, .endTag name])

/-- A span of a text: what it takes is the text up to its rest. -/
def Takes (t : Text) (s : Span) : Prop := ∃ x, t = x ++ s.rest ∧ Seam x s.rest ∧ Gives x s.tokens

theorem takes_of_endsTag {t : Text} {s : Span} (h : Text.EndsTag t s.rest) (hg : ∀ x, Gives x s.tokens) (w : Text) :
    Takes (w ++ t) s := by
  obtain ⟨x, hx, hs⟩ := exists_seam (h.of_suffix (List.suffix_append w t))
  exact ⟨x, hx, hs, hg x⟩

theorem exists_lt_of_opensMarkup {t : Text} (h : opensMarkup t = true) : ∃ u, t = '<' :: u := by
  unfold opensMarkup at h
  split at h
  · exact ⟨_, rfl⟩
  · exact ⟨_, rfl⟩
  · cases h

theorem ofRun_takes (c : Char) (t : Text) : Takes (c :: t) (ofRun (c :: t)) := by
  refine ⟨c :: (Text.cutAt opensMarkup t).1, ?_, ?_, .run⟩
  · exact congrArg (List.cons c) (Text.cutAt_append opensMarkup t).symm
  · rcases Text.cutAt_snd opensMarkup t with h | h
    · exact .inl h
    · exact .inr (.inl (exists_lt_of_opensMarkup h))

/-! ## Comments, doctypes and end tags -/

theorem ofComment_takes (w t : Text) : Takes (w ++ t) (ofComment t) := by
  refine takes_of_endsTag ?_ (fun x => .comment ?_) w
  · rcases Text.cutAt_snd (['-', '-', '>'].isPrefixOf ·) t with h | h
    · exact .inl (by rw [ofComment, h]; rfl)
    · obtain ⟨r, hr⟩ := List.isPrefixOf_iff_prefix.1 h
      refine .inr ⟨(Text.cutAt (['-', '-', '>'].isPrefixOf ·) t).1 ++ ['-', '-'], ?_⟩
      conv => lhs; rw [← Text.cutAt_append (['-', '-', '>'].isPrefixOf ·) t]
      simp only [ofComment, ← hr]
      simp
  · rintro ⟨u, v, h⟩
    rw [List.append_assoc] at h
    exact absurd (Text.cutAt_fst_of_eq h.symm) (by simp)

theorem ofBogus_takes (w t : Text) : Takes (w ++ t) (ofBogus t) := by
  refine takes_of_endsTag (Text.endsTag_dropWhile t) (fun x => .comment fun h => ?_) w
  have := List.mem_takeWhile_imp (h.subset (by simp : '>' ∈ ['-', '-', '>']))
  exact absurd this (by decide)

theorem ofDoctype_takes (w t : Text) : Takes (w ++ t) (ofDoctype t) := by
  have h := Text.endsTag_dropWhile t
  unfold ofDoctype
  split
  · exact takes_of_endsTag (.inl rfl) (fun x => .nothing) w
  · rename_i he
    rw [he] at h
    exact takes_of_endsTag h (fun x => .doctype _) w

theorem ofDeclaration_takes (w t : Text) : Takes (w ++ t) (ofDeclaration t) := by
  unfold ofDeclaration
  split
  · rename_i u
    rw [show w ++ '-' :: '-' :: u = w ++ ['-', '-'] ++ u by simp]
    exact ofComment_takes _ u
  · split
    · exact ofDoctype_takes w t
    · exact ofBogus_takes w t

theorem ofEndTag_takes (w t : Text) : Takes (w ++ t) (ofEndTag t) := by
  refine takes_of_endsTag (Text.endsTag_dropWhile t) (fun x => ?_) w
  simp only [ofEndTag]
  split
  · exact .nothing
  · exact .endTag _

/-! ## Start tags -/

theorem not_hasEndTag_cutAt (name t : Text) :
    ¬Element.HasEndTag name (Text.cutAt (fun s => (afterEndTag? name s).isSome) t).1 := by
  rintro ⟨spelled, blanks, hsp, hb, u, v, h⟩
  have he := Text.cutAt_fst_of_eq (p := fun s => (afterEndTag? name s).isSome) (t := t) (u := u) (c := '<')
    (v := '/' :: spelled ++ blanks ++ ['>'] ++ v) (by rw [← h]; simp)
  rw [Option.isSome_eq_false_iff, Option.isNone_iff_eq_none] at he
  generalize (Text.cutAt (fun s => (afterEndTag? name s).isSome) t).2 = rest at he
  have hsplit : '<' :: ('/' :: spelled ++ blanks ++ ['>'] ++ v) ++ rest =
      '<' :: '/' :: spelled ++ blanks ++ '>' :: (v ++ rest) := by simp
  rw [hsplit, afterEndTag?_eq_some_iff.2 ⟨spelled, blanks, hsp, hb, rfl⟩] at he
  cases he

theorem ofRawText_takes {name : Text} {as : List (Attribute Text)} {w t : Text} (hn : Element.isName name = true)
    (ha : ∀ a ∈ as, Element.isAttributeName a.name = true) (hd : (as.map (·.name)).Nodup)
    (hv : Element.isVoid name = false) (hw : Text.EndsTag w t) :
    Takes w ⟨.startTag name as false :: (ofRawText name t).tokens, (ofRawText name t).rest⟩ := by
  obtain ⟨u, rfl, hu⟩ := exists_seam hw
  have hend := not_hasEndTag_cutAt name t
  have hcut := Text.cutAt_append (fun s => (afterEndTag? name s).isSome) t
  have hsnd := Text.cutAt_snd (fun s => (afterEndTag? name s).isSome) t
  simp only [ofRawText]
  generalize Text.cutAt (fun s => (afterEndTag? name s).isSome) t = r at hend hcut hsnd ⊢
  obtain ⟨b, e⟩ := r
  dsimp only at hend hcut hsnd ⊢
  subst hcut
  rcases hsnd with rfl | hsome
  · exact ⟨u ++ b ++ [], by simp [afterEndTag?], .inl rfl,
      .rawText hn ha hd hv hend rfl (by simpa using hu) (.inl rfl)⟩
  · obtain ⟨rest, hrest⟩ := Option.isSome_iff_exists.1 hsome
    obtain ⟨spelled, blanks, hsp, hb, he⟩ := afterEndTag?_eq_some_iff.1 hrest
    have hv' : e = '<' :: '/' :: spelled ++ blanks ++ ['>'] ++ rest := by rw [he]; simp
    simp only [hrest, Option.getD_some]
    rw [hv', ← List.append_assoc] at hu
    refine ⟨u ++ b ++ ('<' :: '/' :: spelled ++ blanks ++ ['>']), by rw [hv']; simp,
      .inr (.inr ⟨u ++ b ++ ('<' :: '/' :: spelled ++ blanks), by simp⟩),
      .rawText hn ha hd hv hend rfl hu.of_append (.inr (.inl ⟨_, rfl⟩))⟩

theorem ofStartTag_takes {c : Char} (hc : c.isAlpha = true) (w t : Text) :
    Takes (w ++ c :: t) (ofStartTag (c :: t)) := by
  have hn := Element.isName_fold hc t
  have hg := Text.EndsTag.of_suffix (List.dropWhile_suffix Element.isNameChar)
    (Tag.readAll_endsTag ((c :: t).dropWhile Element.isNameChar))
  have ha := Tag.read_names ((c :: t).dropWhile Element.isNameChar)
  have hd := Attribute.nodup_keepFirst (Tag.readAll ((c :: t).dropWhile Element.isNameChar)).attributes
  unfold ofStartTag
  simp only
  split
  · rename_i h
    simp only [Bool.and_eq_true, Bool.not_eq_true', Bool.or_eq_false_iff] at h
    rw [h.1.1, h.1.2, Bool.or_false]
    exact ofRawText_takes hn ha hd h.1.2 (hg.of_suffix (List.suffix_append w _))
  · rename_i h
    refine takes_of_endsTag hg (fun x => .startTag hn ha hd (fun hv => ?_) fun hr => ?_) w
    · rw [hv, Bool.or_true]
    · exact Bool.eq_true_of_not_eq_false fun hf => h (by rw [hf, hr]; rfl)

theorem exists_letter_of_opensMarkup {u : Text} (h : opensMarkup ('<' :: u) = true) :
    ∃ c t, u = c :: t ∧ (c.isAlpha = true ∨ c = '!' ∨ c = '?' ∨ c = '/') := by
  unfold opensMarkup at h
  split at h
  · rename_i he
    obtain ⟨-, rfl⟩ := List.cons.inj he
    exact ⟨_, _, rfl, .inr (.inr (.inr rfl))⟩
  · rename_i he
    obtain ⟨-, rfl⟩ := List.cons.inj he
    simp only [Bool.or_eq_true, beq_iff_eq] at h
    refine ⟨_, _, rfl, ?_⟩
    rcases h with (h | h) | h
    · exact .inl h
    · exact .inr (.inl h)
    · exact .inr (.inr (.inl h))
  · cases h

/-- **Every span takes what it gives from the front of its text.** -/
theorem read_takes {t : Text} (ht : t ≠ []) : Takes t (read t) := by
  rw [read]
  by_cases h : opensMarkup t = true
  · rw [if_pos h]
    obtain ⟨u, rfl⟩ := exists_lt_of_opensMarkup h
    rw [List.drop_one, List.tail_cons]
    unfold ofMarkup
    split
    · rename_i u
      exact ofDeclaration_takes ['<', '!'] u
    · rename_i u
      exact ofBogus_takes ['<'] ('?' :: u)
    · rename_i u
      exact ofEndTag_takes ['<', '/'] u
    · rename_i h1 h2 h3
      obtain ⟨c, t, rfl, hc | rfl | rfl | rfl⟩ := exists_letter_of_opensMarkup h
      · exact ofStartTag_takes hc ['<'] t
      · exact absurd rfl (h1 t)
      · exact absurd rfl (h2 t)
      · exact absurd rfl (h3 t)
  · rw [if_neg h]
    obtain ⟨c, u, rfl⟩ := List.exists_cons_of_ne_nil ht
    exact ofRun_takes c u

end Span
end SafeMarkup
