import SafeMarkup.Proofs.References
import SafeMarkup.Proofs.Shape
/-!
# How written pieces are scanned

Each piece of a written tree — a start tag, an end tag, a comment, raw text — is scanned as the one span it was written
for, whatever follows it (`Span.read_writeStart`, `Span.read_writeEnd`, `Span.read_comment`, `Span.ofRawText_append`).
-/
namespace SafeMarkup

namespace Text

/-! ## Runs of characters -/

theorem fold_eq_self {t : Text} (h : ∀ c ∈ t, c.isUpper = false) : fold t = t := by
  rw [fold, List.map_congr_left fun c hc => Char.toLower_eq_of_not_isUpper (by simp [h c hc]), List.map_id']

theorem fold_fold (t : Text) : fold (fold t) = fold t :=
  fold_eq_self fun c hc => by
    obtain ⟨d, -, rfl⟩ := List.mem_map.1 hc
    exact Char.isUpper_toLower_eq_false d

theorem toLower_ne {c d : Char} (hd : d.isLower = false) (h : c ≠ d) : c.toLower ≠ d := by
  by_cases hu : c.isUpper = true
  · rintro rfl
    simp [Char.isAlpha, hu] at hd
  · rwa [Char.toLower_eq_of_not_isUpper hu]

theorem takeWhile_append_cons {p : Char → Bool} {s : Text} {c : Char} (hs : ∀ d ∈ s, p d = true) (hc : p c = false)
    (t : Text) : (s ++ c :: t).takeWhile p = s := by
  rw [List.takeWhile_append_of_pos hs, List.takeWhile_cons_of_neg (by simp [hc]), List.append_nil]

theorem dropWhile_append_cons {p : Char → Bool} {s : Text} {c : Char} (hs : ∀ d ∈ s, p d = true) (hc : p c = false)
    (t : Text) : (s ++ c :: t).dropWhile p = c :: t := by
  rw [List.dropWhile_append_of_pos hs, List.dropWhile_cons_of_neg (by simp [hc])]

theorem skipBlanks_cons {c : Char} (h : isBlank c = false) (t : Text) : skipBlanks (c :: t) = c :: t :=
  List.dropWhile_cons_of_neg (by simp [h])

theorem ne_of_forall_ne {s : Text} {x : Char} (h : x ∉ s) : ∀ c ∈ s, (c != x) = true := fun c hc => by
  rw [bne_iff_ne]
  rintro rfl
  exact h hc

theorem exists_append_of_notMem {x : Char} {w v z r : Text} (hx : x ∉ w) (h : v ++ x :: z = w ++ r) :
    ∃ s, v = w ++ s ∧ r = s ++ x :: z := by
  obtain ⟨s, rfl, hs⟩ | ⟨s, rfl, hs⟩ := List.append_eq_append_iff.1 h
  · cases s with
    | nil => exact ⟨[], by simp, hs.symm⟩
    | cons y s =>
      obtain ⟨rfl, -⟩ := List.cons.inj hs
      exact absurd (List.mem_append_right _ (List.mem_cons_self ..)) hx
  · exact ⟨s, rfl, hs⟩

theorem infix_of_infix_append {c : Char} {x w t : Text} (hx : c ∉ x) (h : c :: w <:+: x ++ t) : c :: w <:+: t := by
  obtain ⟨u, v, h⟩ := h
  rw [List.append_assoc] at h
  obtain ⟨s, -, rfl⟩ := exists_append_of_notMem hx h
  exact ⟨s, v, by simp⟩

theorem cutAt_of_pos {p : Text → Bool} {t : Text} (h : p t = true) : cutAt p t = ([], t) := by
  cases t with
  | nil => rfl
  | cons c t => rw [cutAt, if_pos h]

theorem cutAt_of_neg {p : Text → Bool} {c : Char} {t : Text} (h : p (c :: t) = false) :
    cutAt p (c :: t) = (c :: (cutAt p t).1, (cutAt p t).2) := by
  rw [cutAt, if_neg (by simp [h])]

theorem cutAt_append_of_neg {p : Text → Bool} {t : Text} : ∀ {s : Text},
    (∀ u c v, s = u ++ c :: v → p (c :: v ++ t) = false) →
    cutAt p (s ++ t) = (s ++ (cutAt p t).1, (cutAt p t).2)
  | [], _ => rfl
  | c :: s, h => by
    have hc : p (c :: (s ++ t)) = false := h [] c s rfl
    have hs := cutAt_append_of_neg (s := s) fun u d v he => h (c :: u) d v (by rw [he]; rfl)
    rw [List.cons_append, cutAt_of_neg hc, hs, List.cons_append]

theorem sameFolded_iff {a b : Text} : sameFolded a b = true ↔ fold a = fold b := by rw [sameFolded, beq_iff_eq]

theorem afterFolded?_eq_some_iff : ∀ {p t rest : Text},
    afterFolded? p t = some rest ↔ ∃ s, sameFolded s p = true ∧ t = s ++ rest
  | [], t, rest => by
    simp only [afterFolded?, Option.some.injEq, sameFolded_iff]
    constructor
    · rintro rfl
      exact ⟨[], rfl, rfl⟩
    · rintro ⟨s, hs, rfl⟩
      rw [List.map_eq_nil_iff.1 hs, List.nil_append]
  | a :: p, [], rest => by
    simp only [afterFolded?, sameFolded_iff]
    constructor
    · intro h
      cases h
    · rintro ⟨s, hs, he⟩
      rw [(List.append_eq_nil_iff.1 he.symm).1] at hs
      cases hs
  | a :: p, c :: t, rest => by
    rw [afterFolded?]
    constructor
    · intro h
      split at h
      · rename_i hac
        obtain ⟨s, hs, rfl⟩ := afterFolded?_eq_some_iff.1 h
        refine ⟨c :: s, ?_, rfl⟩
        rw [sameFolded_iff] at hs ⊢
        exact congrArg₂ List.cons (eq_of_beq hac).symm hs
      · cases h
    · rintro ⟨s, hs, he⟩
      rw [sameFolded_iff] at hs
      cases s with
      | nil => cases hs
      | cons d s =>
        obtain ⟨rfl, rfl⟩ := List.cons.inj he
        obtain ⟨hd, hs⟩ := List.cons.inj hs
        rw [if_pos (beq_iff_eq.2 hd.symm)]
        exact afterFolded?_eq_some_iff.2 ⟨s, sameFolded_iff.2 hs, rfl⟩

end Text

/-! ## Tags -/

namespace Element

theorem isName_iff {name : Text} : isName name = true ↔
    ∃ c t, name = c :: t ∧ c.isLower = true ∧ ∀ d ∈ t, isNameChar d = true ∧ d.isUpper = false := by
  cases name with
  | nil => simp [isName]
  | cons c t => simp [isName]

theorem isTagSpelling_iff {name : Text} : isTagSpelling name = true ↔
    ∃ c t, name = c :: t ∧ c.isAlpha = true ∧ ∀ d ∈ t, isNameChar d = true := by
  cases name with
  | nil => simp [isTagSpelling]
  | cons c t => simp [isTagSpelling]

theorem isNameChar_of_isAlpha {c : Char} (h : c.isAlpha = true) : isNameChar c = true := by
  simp [isNameChar, Char.isAlphanum, h]

theorem isNameChar_of_isTagSpelling {name : Text} (h : isTagSpelling name = true) : ∀ c ∈ name, isNameChar c = true := by
  obtain ⟨c, t, rfl, hc, ht⟩ := isTagSpelling_iff.1 h
  exact List.forall_mem_cons.2 ⟨isNameChar_of_isAlpha hc, ht⟩

theorem isTagSpelling_of_isName {name : Text} (h : isName name = true) : isTagSpelling name = true := by
  obtain ⟨c, t, rfl, hc, ht⟩ := isName_iff.1 h
  exact isTagSpelling_iff.2 ⟨c, t, rfl, by simp [Char.isAlpha, hc], fun d hd => (ht d hd).1⟩

theorem isNameChar_of_isName {name : Text} (h : isName name = true) : ∀ c ∈ name, isNameChar c = true :=
  isNameChar_of_isTagSpelling (isTagSpelling_of_isName h)

theorem fold_of_isName {name : Text} (h : isName name = true) : Text.fold name = name := by
  obtain ⟨c, t, rfl, hc, ht⟩ := isName_iff.1 h
  have hupper : c.isUpper = false := by simpa using Char.not_isUpper_of_isLower hc
  exact Text.fold_eq_self (List.forall_mem_cons.2 ⟨hupper, fun d hd => (ht d hd).2⟩)

theorem isRawText_fold (name : Text) : isRawText (Text.fold name) = isRawText name := by
  simp only [isRawText, Text.sameFolded, Text.fold_fold]

theorem isAttributeSpelling_iff {name : Text} : isAttributeSpelling name = true ↔
    name ≠ [] ∧ ∀ c ∈ name, isAttributeChar c = true := by
  simp [isAttributeSpelling, ← List.isEmpty_eq_false_iff]

theorem isAttributeName_iff {name : Text} : isAttributeName name = true ↔
    name ≠ [] ∧ ∀ c ∈ name, isAttributeChar c = true ∧ c.isUpper = false := by
  simp [isAttributeName, ← List.isEmpty_eq_false_iff]

theorem isAttributeSpelling_of_isAttributeName {name : Text} (h : isAttributeName name = true) :
    isAttributeSpelling name = true := by
  obtain ⟨hne, hn⟩ := isAttributeName_iff.1 h
  exact isAttributeSpelling_iff.2 ⟨hne, fun c hc => (hn c hc).1⟩

theorem fold_of_isAttributeName {name : Text} (h : isAttributeName name = true) : Text.fold name = name :=
  Text.fold_eq_self fun c hc => ((isAttributeName_iff.1 h).2 c hc).2

end Element

namespace Attribute

theorem readValue_quoted {t r : Text} {q : Char} (hq : q = '"' ∨ q = '\'') (h : Text.skipBlanks t = q :: r) :
    readValue t = (r.takeWhile (· != q), (r.dropWhile (· != q)).drop 1) := by
  rw [readValue, h]
  rcases hq with rfl | rfl
  · rfl
  · rfl

theorem readValue_bare {t : Text} (h : ∀ c ∈ (Text.skipBlanks t).head?, c ≠ '"' ∧ c ≠ '\'') :
    readValue t = Text.cutAt endsBareValue (Text.skipBlanks t) := by
  rw [readValue]
  split
  · rename_i r hr
    rw [hr] at h
    exact absurd rfl (h '"' rfl).1
  · rename_i r hr
    rw [hr] at h
    exact absurd rfl (h '\'' rfl).2
  · rfl

theorem readValue_infix (t : Text) : (readValue t).1 <:+: t := by
  have hs : Text.skipBlanks t <:+ t := List.dropWhile_suffix _
  have hquoted : ∀ (q : Char) (r : Text), Text.skipBlanks t = q :: r → r.takeWhile (· != q) <:+: t := by
    intro q r hr
    rw [hr] at hs
    exact (List.takeWhile_prefix _).isInfix.trans ((List.suffix_cons q r).trans hs).isInfix
  rw [readValue]
  split
  · rename_i r hr
    exact hquoted '"' r hr
  · rename_i r hr
    exact hquoted '\'' r hr
  · exact List.IsInfix.trans ⟨[], _, Text.cutAt_append _ _⟩ hs.isInfix

theorem read_of_equals {t r : Text} (h : Text.skipBlanks (t.dropWhile Element.isAttributeChar) = '=' :: r) :
    read t = (⟨Text.fold (t.takeWhile Element.isAttributeChar), some (Reference.decode (readValue r).1)⟩,
      (readValue r).2) := by
  rw [read, h]
  rfl

theorem read_of_ne {t : Text} (h : (Text.skipBlanks (t.dropWhile Element.isAttributeChar)).head? ≠ some '=') :
    read t = (⟨Text.fold (t.takeWhile Element.isAttributeChar), none⟩,
      Text.skipBlanks (t.dropWhile Element.isAttributeChar)) := by
  rw [read]
  split
  · rename_i r hr
    rw [hr] at h
    exact absurd rfl h
  · rfl

theorem read_quoted {name v : Text} {q : Char} (hn : Element.isAttributeSpelling name = true)
    (hq : q = '"' ∨ q = '\'') (hv : q ∉ v) (t : Text) :
    read (name ++ '=' :: q :: (v ++ q :: t)) = (⟨Text.fold name, some (Reference.decode v)⟩, t) := by
  obtain ⟨-, hn⟩ := Element.isAttributeSpelling_iff.1 hn
  have hblank : Text.isBlank q = false := by rcases hq with rfl | rfl <;> rfl
  have hvalue : readValue (q :: (v ++ q :: t)) = (v, t) := by
    have hne := Text.ne_of_forall_ne hv
    rw [readValue_quoted hq (Text.skipBlanks_cons hblank _), Text.takeWhile_append_cons hne (by simp),
      Text.dropWhile_append_cons hne (by simp), List.drop_one, List.tail_cons]
  have hequals : Text.skipBlanks ((name ++ '=' :: q :: (v ++ q :: t)).dropWhile Element.isAttributeChar) =
      '=' :: q :: (v ++ q :: t) := by
    rw [Text.dropWhile_append_cons hn (by decide)]
    exact Text.skipBlanks_cons (by decide) _
  rw [read_of_equals hequals, Text.takeWhile_append_cons hn (by decide), hvalue]

end Attribute

namespace Tag

theorem readAll_of_nil {t : Text} (h : Text.skipBlanks t = []) : readAll t = ⟨[], false, []⟩ := by
  rw [readAll]
  split <;> simp_all

theorem readAll_of_gt {t r : Text} (h : Text.skipBlanks t = '>' :: r) : readAll t = ⟨[], false, r⟩ := by
  rw [readAll]
  split <;> simp_all

theorem readAll_of_slash_gt {t r : Text} (h : Text.skipBlanks t = '/' :: '>' :: r) : readAll t = ⟨[], true, r⟩ := by
  rw [readAll]
  split <;> simp_all

theorem readAll_of_not_isAttributeChar {t r : Text} {c : Char} (h : Text.skipBlanks t = c :: r) (hgt : c ≠ '>')
    (hslash : ¬(c = '/' ∧ r.head? = some '>')) (hc : Element.isAttributeChar c = false) : readAll t = readAll r := by
  rw [readAll]
  split
  · rename_i he
    rw [h] at he
    cases he
  · rename_i he
    rw [h] at he
    exact absurd (List.cons.inj he).1 hgt
  · rename_i he
    rw [h] at he
    obtain ⟨hcslash, hr⟩ := List.cons.inj he
    exact absurd ⟨hcslash, by rw [hr]; rfl⟩ hslash
  · rename_i he
    rw [h] at he
    obtain ⟨rfl, rfl⟩ := List.cons.inj he
    rw [dif_neg (by simp [hc])]

theorem readAll_gt (t : Text) : readAll ('>' :: t) = ⟨[], false, t⟩ := readAll_of_gt (Text.skipBlanks_cons (by decide) t)

theorem isBlank_of_isAttributeChar {c : Char} (h : Element.isAttributeChar c = true) :
    Text.isBlank c = false ∧ c ≠ '>' ∧ c ≠ '/' := by
  simp only [Element.isAttributeChar, Bool.and_eq_true, bne_iff_ne, Bool.not_eq_true'] at h
  exact ⟨h.1.1.1.1.1.1, h.1.1.1.1.2, h.1.1.1.1.1.2⟩

theorem readAll_of_isAttributeChar {t r : Text} {c : Char} (hs : Text.skipBlanks t = c :: r)
    (hc : Element.isAttributeChar c = true) :
    readAll t = (readAll (Attribute.read (c :: r)).2).cons (Attribute.read (c :: r)).1 := by
  obtain ⟨-, hgt, hslash⟩ := isBlank_of_isAttributeChar hc
  rw [readAll]
  split
  · rename_i h
    rw [hs] at h
    cases h
  · rename_i h
    rw [hs] at h
    exact absurd (List.cons.inj h).1 hgt
  · rename_i h
    rw [hs] at h
    exact absurd (List.cons.inj h).1 hslash
  · rename_i d s _ _ h
    rw [hs] at h
    obtain ⟨rfl, rfl⟩ := List.cons.inj h
    rw [dif_pos hc]

/-- An attribute is written as a blank, its name and its value in quotes. -/
theorem readAll_quoted {name v : Text} {q : Char} (hn : Element.isAttributeSpelling name = true)
    (hq : q = '"' ∨ q = '\'') (hv : q ∉ v) (t : Text) :
    readAll (' ' :: (name ++ '=' :: q :: (v ++ q :: t))) =
      (readAll t).cons ⟨Text.fold name, some (Reference.decode v)⟩ := by
  have hread := Attribute.read_quoted hn hq hv t
  obtain ⟨hne, hn⟩ := Element.isAttributeSpelling_iff.1 hn
  obtain ⟨c, n, rfl⟩ := List.exists_cons_of_ne_nil hne
  have hc := hn c (List.mem_cons_self ..)
  rw [List.cons_append] at hread ⊢
  have hs : Text.skipBlanks (' ' :: c :: (n ++ '=' :: q :: (v ++ q :: t))) = c :: (n ++ '=' :: q :: (v ++ q :: t)) := by
    rw [Text.skipBlanks, List.dropWhile_cons_of_pos (by decide)]
    exact Text.skipBlanks_cons (isBlank_of_isAttributeChar hc).1 _
  rw [readAll_of_isAttributeChar hs hc, hread]

theorem readAll_write : ∀ {as : List (Attribute Text)}, (∀ a ∈ as, Element.isAttributeName a.name = true) → ∀ t : Text,
    readAll (as.flatMap Attribute.write ++ '>' :: t) = ⟨as.map Attribute.valued, false, t⟩
  | [], _, t => readAll_gt t
  | a :: as, h, t => by
    obtain ⟨ha, has⟩ := List.forall_mem_cons.1 h
    have hwritten : (a :: as).flatMap Attribute.write ++ '>' :: t = ' ' :: (a.name ++ '=' :: '"' ::
        (escapeValue (a.value.getD []) ++ '"' :: (as.flatMap Attribute.write ++ '>' :: t))) := by
      simp [Attribute.write]
    rw [hwritten, readAll_quoted (Element.isAttributeSpelling_of_isAttributeName ha) (.inl rfl)
      (Reference.quote_notMem_escapeValue _), readAll_write has t, Element.fold_of_isAttributeName ha,
      Reference.decode_escapeValue]
    rfl

theorem keepFirst_of_nodup : ∀ {as : List (Attribute Text)}, (as.map (·.name)).Nodup → Attribute.keepFirst as = as
  | [], _ => rfl
  | a :: as, h => by
    obtain ⟨ha, has⟩ := List.nodup_cons.1 h
    rw [Attribute.keepFirst, keepFirst_of_nodup has, List.filter_eq_self.2]
    intro b hb
    rw [bne_iff_ne]
    intro he
    exact ha (List.mem_map.2 ⟨b, hb, he⟩)

/-- **A written start tag is read with its attributes**, which all have a value now. -/
theorem read_write {as : List (Attribute Text)} (ha : ∀ a ∈ as, Element.isAttributeName a.name = true)
    (hd : (as.map (·.name)).Nodup) (t : Text) :
    read (as.flatMap Attribute.write ++ '>' :: t) = ⟨as.map Attribute.valued, false, t⟩ := by
  rw [read, readAll_write ha t]
  simp only
  rw [keepFirst_of_nodup]
  rwa [List.map_map]

end Tag

namespace Span

/-! ## Spans -/

theorem opensMarkup_of_ne {c : Char} (h : c ≠ '<') (t : Text) : opensMarkup (c :: t) = false := by
  unfold opensMarkup
  split
  · rename_i he
    exact absurd (List.cons.inj he).1 h
  · rename_i he
    exact absurd (List.cons.inj he).1 h
  · rfl

theorem opensMarkup_of_ne_slash {c : Char} (h : c ≠ '/') (t : Text) :
    opensMarkup ('<' :: c :: t) = (c.isAlpha || c == '!' || c == '?') := by
  unfold opensMarkup
  split
  · rename_i he
    exact absurd (List.cons.inj (List.cons.inj he).2).1 h
  · rename_i he
    obtain ⟨rfl, -⟩ := List.cons.inj (List.cons.inj he).2
    rfl
  · rename_i hne
    exact absurd rfl (hne c t)

theorem ofRun_cons {c : Char} {t : Text} (h : opensMarkup (c :: t) = false) : ofRun (c :: t) =
    ⟨[.text (Reference.decode (Text.cutAt opensMarkup (c :: t)).1)], (Text.cutAt opensMarkup (c :: t)).2⟩ := by
  rw [Text.cutAt_of_neg h]
  rfl

theorem ofDoctype_eq (t : Text) : ofDoctype t =
    ⟨if (t.dropWhile (· != '>')).isEmpty then [] else [.doctype (Text.trim (t.takeWhile (· != '>')))],
      (t.dropWhile (· != '>')).drop 1⟩ := by
  unfold ofDoctype
  split
  · rename_i h
    rw [h]
    rfl
  · rename_i h
    rw [h]
    rfl

theorem ofDeclaration_of_not_comment {t : Text} (h : ['-', '-'].isPrefixOf t = false) : ofDeclaration t =
    if (Text.afterFolded? ['d', 'o', 'c', 't', 'y', 'p', 'e'] t).isSome then ofDoctype t else ofBogus t := by
  unfold ofDeclaration
  split
  · cases h
  · rfl

theorem ofMarkup_of_ne {c : Char} (t : Text) (h1 : c ≠ '!') (h2 : c ≠ '?') (h3 : c ≠ '/') :
    ofMarkup (c :: t) = ofStartTag (c :: t) := by
  unfold ofMarkup
  split
  · rename_i he
    exact absurd (List.cons.inj he).1 h1
  · rename_i he
    exact absurd (List.cons.inj he).1 h2
  · rename_i he
    exact absurd (List.cons.inj he).1 h3
  · rfl

theorem ne_of_isAlpha {c d : Char} (hc : c.isAlpha = true) (hd : d.isAlpha = false) : c ≠ d := by
  rintro rfl
  rw [hc] at hd
  cases hd

/-- `<` and a name begin a start tag. -/
theorem read_of_isTagSpelling {name : Text} (h : Element.isTagSpelling name = true) (t : Text) :
    read ('<' :: (name ++ t)) = ofStartTag (name ++ t) := by
  obtain ⟨c, n, rfl, hc, -⟩ := Element.isTagSpelling_iff.1 h
  rw [List.cons_append, read, opensMarkup_of_ne_slash (ne_of_isAlpha hc (by decide)), hc, Bool.true_or, Bool.true_or,
    if_pos rfl, List.drop_one, List.tail_cons,
    ofMarkup_of_ne _ (ne_of_isAlpha hc (by decide)) (ne_of_isAlpha hc (by decide)) (ne_of_isAlpha hc (by decide))]

/-- An end tag is read by its name in lower case. -/
theorem read_endTag {name : Text} (h : Element.isTagSpelling name = true) (t : Text) :
    read (Node.writeEnd name ++ t) = ⟨[.endTag (Text.fold name)], t⟩ := by
  have hnc := Element.isNameChar_of_isTagSpelling h
  have hgt : ∀ d ∈ name, (d != '>') = true := fun d hd => by
    rw [bne_iff_ne]
    rintro rfl
    exact absurd (hnc _ hd) (by decide)
  have hw : Node.writeEnd name ++ t = '<' :: '/' :: (name ++ '>' :: t) := by simp [Node.writeEnd]
  have hend : ofEndTag (name ++ '>' :: t) = ⟨if name.isEmpty then [] else [.endTag (Text.fold name)], t⟩ := by
    rw [ofEndTag, Text.takeWhile_append_cons hnc (by decide), Text.dropWhile_append_cons hgt (by decide), List.drop_one,
      List.tail_cons]
  obtain ⟨c, n, rfl, hc, -⟩ := Element.isTagSpelling_iff.1 h
  have hopens : opensMarkup ('<' :: '/' :: (c :: n ++ '>' :: t)) = true := by
    rw [List.cons_append, opensMarkup, hc, Bool.true_or]
  rw [hw, read, if_pos hopens]
  exact hend

/-- What a start tag gives once its name and attributes are known. -/
def ofTag (name : Text) (as : List (Attribute Text)) (t : Text) : Span :=
  if Element.isVoid name then ⟨[.startTag name as true], t⟩
  else if Element.isRawText name then ⟨.startTag name as false :: (ofRawText name t).tokens, (ofRawText name t).rest⟩
  else ⟨[.startTag name as false], t⟩

/-- **A written start tag is one span**, with its raw text. -/
theorem read_writeStart {name : Text} {as : List (Attribute Text)} {cs : List Node} (h : Element.Fits name as cs)
    (t : Text) : read (Node.writeStart name as ++ t) = ofTag name (as.map Attribute.valued) t := by
  have hnc := Element.isNameChar_of_isName h.isName
  have hw : Node.writeStart name as ++ t = '<' :: (name ++ (as.flatMap Attribute.write ++ '>' :: t)) := by
    simp [Node.writeStart]
  obtain ⟨d, r, hdr, hd⟩ : ∃ d r, as.flatMap Attribute.write ++ '>' :: t = d :: r ∧ Element.isNameChar d = false := by
    cases as with
    | nil => exact ⟨_, _, rfl, by decide⟩
    | cons a as => exact ⟨' ', _, rfl, by decide⟩
  have hg : Tag.read (d :: r) = ⟨as.map Attribute.valued, false, t⟩ :=
    hdr ▸ Tag.read_write h.attributeNames h.distinct t
  have hstart : ofStartTag (name ++ d :: r) = ofTag name (as.map Attribute.valued) t := by
    unfold ofStartTag ofTag
    simp only [Text.takeWhile_append_cons hnc hd, Text.dropWhile_append_cons hnc hd, hg,
      Element.fold_of_isName h.isName]
    by_cases hv : Element.isVoid name = true
    · simp [hv]
    · by_cases hr : Element.isRawText name = true
      · simp [hv, hr]
      · simp [hv, hr]
  rw [hw, hdr, read_of_isTagSpelling (Element.isTagSpelling_of_isName h.isName), hstart]

theorem read_writeEnd {name : Text} (h : Element.isName name = true) (t : Text) :
    read (Node.writeEnd name ++ t) = ⟨[.endTag name], t⟩ := by
  rw [read_endTag (Element.isTagSpelling_of_isName h), Element.fold_of_isName h]

theorem commentEnd_isPrefixOf {t u v z : Text} {c : Char} (h : ¬['-', '-', '>'] <:+: t) (ht : t = u ++ c :: v) :
    ['-', '-', '>'].isPrefixOf (c :: v ++ '-' :: '-' :: '>' :: z) = false := by
  rw [Bool.eq_false_iff, ne_eq, List.isPrefixOf_iff_prefix]
  rintro ⟨r, hr⟩
  cases v with
  | nil => simp at hr
  | cons d v =>
    cases v with
    | nil => simp at hr
    | cons e v =>
      simp only [List.cons_append, List.cons.injEq, List.nil_append] at hr
      obtain ⟨rfl, rfl, rfl, -⟩ := hr
      exact h ⟨u, v, by rw [ht]; simp⟩

theorem read_comment {t : Text} (h : ¬['-', '-', '>'] <:+: t) (z : Text) :
    read ((Node.comment t).write false ++ z) = ⟨[.comment t], z⟩ := by
  have hw : (Node.comment t).write false ++ z = '<' :: '!' :: '-' :: '-' :: (t ++ '-' :: '-' :: '>' :: z) := by
    simp [Node.write]
  have hend : Text.cutAt (['-', '-', '>'].isPrefixOf ·) ('-' :: '-' :: '>' :: z) = ([], '-' :: '-' :: '>' :: z) :=
    Text.cutAt_of_pos rfl
  have hcut := Text.cutAt_append_of_neg (p := (['-', '-', '>'].isPrefixOf ·)) (t := '-' :: '-' :: '>' :: z)
    fun u c v ht => commentEnd_isPrefixOf h ht
  rw [hend, List.append_nil] at hcut
  rw [hw]
  change ofComment (t ++ '-' :: '-' :: '>' :: z) = _
  rw [ofComment, hcut]
  rfl

/-! ## Raw text -/

theorem afterEndTag?_eq_some_iff {name t rest : Text} : afterEndTag? name t = some rest ↔
    ∃ spelled blanks, Text.sameFolded spelled name = true ∧ (∀ c ∈ blanks, Text.isBlank c = true) ∧
      t = '<' :: '/' :: spelled ++ blanks ++ '>' :: rest := by
  constructor
  · intro h
    unfold afterEndTag? at h
    split at h
    · rename_i u
      split at h
      · rename_i r hr
        obtain rfl := Option.some.inj h
        obtain ⟨w, hw, hs⟩ := Option.map_eq_some_iff.1 hr
        obtain ⟨spelled, hsp, rfl⟩ := Text.afterFolded?_eq_some_iff.1 hw
        refine ⟨spelled, w.takeWhile Text.isBlank, hsp, fun c hc => List.mem_takeWhile_imp hc, ?_⟩
        rw [← hs, Text.skipBlanks, List.append_assoc, List.takeWhile_append_dropWhile]
        rfl
      · cases h
    · cases h
  · rintro ⟨spelled, blanks, hsp, hb, rfl⟩
    have hf : Text.afterFolded? name (spelled ++ (blanks ++ '>' :: rest)) = some (blanks ++ '>' :: rest) :=
      Text.afterFolded?_eq_some_iff.2 ⟨spelled, hsp, rfl⟩
    have hs : Text.skipBlanks (blanks ++ '>' :: rest) = '>' :: rest :=
      Text.dropWhile_append_cons hb (by decide) rest
    simp only [afterEndTag?, List.cons_append, List.append_assoc, hf, Option.map_some, hs]

theorem afterEndTag?_writeEnd (name t : Text) : afterEndTag? name (Node.writeEnd name ++ t) = some t :=
  afterEndTag?_eq_some_iff.2 ⟨name, [], beq_self_eq_true _, by simp, by simp [Node.writeEnd]⟩

theorem lt_notMem_of_sameFolded {name spelled : Text} (h : Element.isName name = true)
    (hs : Text.sameFolded spelled name = true) : '<' ∉ spelled := by
  intro hm
  rw [Text.sameFolded_iff, Element.fold_of_isName h] at hs
  have := Element.isNameChar_of_isName h '<' (hs ▸ List.mem_map.2 ⟨_, hm, by decide⟩)
  exact absurd this (by decide)

/-- No end tag begins in a text that holds none, whatever follows, as long as that begins with `<`. -/
theorem afterEndTag?_of_not_hasEndTag {name t u v z : Text} {c : Char} (hn : Element.isName name = true)
    (h : ¬Element.HasEndTag name t) (ht : t = u ++ c :: v) : afterEndTag? name (c :: v ++ '<' :: z) = none := by
  rw [Option.eq_none_iff_forall_not_mem]
  intro rest hr
  obtain ⟨spelled, blanks, hsp, hb, he⟩ := afterEndTag?_eq_some_iff.1 hr
  have hlt : '<' ∉ '/' :: spelled ++ blanks ++ ['>'] := by
    simp only [List.mem_append, List.mem_cons, List.not_mem_nil, or_false, not_or]
    refine ⟨⟨⟨by decide, lt_notMem_of_sameFolded hn hsp⟩, fun hm => absurd (hb _ hm) (by decide)⟩, by decide⟩
  obtain ⟨rfl, hv⟩ := List.cons.inj he
  have hv : v ++ '<' :: z = '/' :: spelled ++ blanks ++ ['>'] ++ rest := by
    rw [List.append_assoc _ ['>']]
    exact hv
  obtain ⟨s, rfl, -⟩ := Text.exists_append_of_notMem hlt hv
  exact h ⟨spelled, blanks, hsp, hb, u, s, by rw [ht]; simp⟩

/-- **Raw text is read up to the end tag that was written behind it.** -/
theorem ofRawText_append {name t : Text} (hn : Element.isName name = true) (h : ¬Element.HasEndTag name t) (z : Text) :
    ofRawText name (t ++ (Node.writeEnd name ++ z)) =
      ⟨if t.isEmpty then [.endTag name] else [.text t, .endTag name], z⟩ := by
  have hw : Node.writeEnd name ++ z = '<' :: ('/' :: name ++ ['>'] ++ z) := by simp [Node.writeEnd]
  have hcut := Text.cutAt_append_of_neg (p := fun s => (afterEndTag? name s).isSome) (t := Node.writeEnd name ++ z)
    fun u c v ht => by rw [hw, afterEndTag?_of_not_hasEndTag hn h ht, Option.isSome_none]
  rw [Text.cutAt_of_pos (t := Node.writeEnd name ++ z) (by rw [afterEndTag?_writeEnd, Option.isSome_some]),
    List.append_nil] at hcut
  rw [ofRawText, hcut]
  simp only [afterEndTag?_writeEnd, Option.getD_some]

end Span
end SafeMarkup
