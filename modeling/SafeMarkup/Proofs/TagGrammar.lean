import SafeMarkup.Proofs.Spans
/-!
# How tags are spelled

What may stand between a tag's name and its end, as a grammar (`Tag.Spells`): attributes in each of their spellings, and
characters that are passed over.  It says of every text what a tag is read as, and of every tag how it can have been
written (`Tag.spells_iff`).
-/
namespace SafeMarkup

namespace Text

/-- Blanks and nothing else, or nothing at all. -/
def Blank (b : Text) : Prop := ∀ c ∈ b, isBlank c = true

instance (b : Text) : Decidable (Blank b) := List.decidableBAll _ _

theorem skipBlanks_append {b : Text} (hb : Blank b) (t : Text) : skipBlanks (b ++ t) = skipBlanks t :=
  List.dropWhile_append_of_pos hb

/-- A text is blanks and what is left without them. -/
theorem exists_blank (t : Text) : ∃ b, Blank b ∧ t = b ++ skipBlanks t :=
  ⟨t.takeWhile isBlank, fun _ hc => List.mem_takeWhile_imp hc, List.takeWhile_append_dropWhile.symm⟩

theorem not_isBlank_of_mem_head?_skipBlanks {t : Text} {c : Char} (h : c ∈ (skipBlanks t).head?) : isBlank c = false := by
  have hstop := List.head?_dropWhile_not isBlank t
  rw [← skipBlanks, Option.mem_def.1 h] at hstop
  exact by simpa using hstop

theorem forall_head?_append {p : Char → Bool} {b t : Text} {c : Char} (hb : Blank b)
    (hblank : ∀ d, isBlank d = true → p d = false) (hc : p c = false) : ∀ d ∈ (b ++ c :: t).head?, p d = false := by
  intro d hd
  cases b with
  | nil =>
    obtain rfl := Option.some.inj hd
    exact hc
  | cons e b =>
    obtain rfl := Option.some.inj hd
    exact hblank _ (hb _ (List.mem_cons_self ..))

/-- A run of characters ends where the next character is not one of them. -/
theorem run_append {p : Char → Bool} {s t : Text} (hs : ∀ c ∈ s, p c = true) (ht : ∀ c ∈ t.head?, p c = false) :
    (s ++ t).takeWhile p = s ∧ (s ++ t).dropWhile p = t := by
  cases t with
  | nil => simpa using hs
  | cons c t => exact ⟨takeWhile_append_cons hs (ht c rfl) t, dropWhile_append_cons hs (ht c rfl) t⟩

/-- A text up to a character: all of it, or what stands before the character. -/
theorem upTo_cases (q : Char) (t : Text) : ∃ v, q ∉ v ∧ t.takeWhile (· != q) = v ∧
    ((t = v ∧ t.dropWhile (· != q) = []) ∨ ∃ r, t = v ++ q :: r ∧ t.dropWhile (· != q) = q :: r) := by
  have ht := List.takeWhile_append_dropWhile (p := (· != q)) (l := t)
  refine ⟨_, fun hm => by simpa using List.mem_takeWhile_imp hm, rfl, ?_⟩
  cases hd : t.dropWhile (· != q) with
  | nil =>
    rw [hd, List.append_nil] at ht
    exact .inl ⟨ht.symm, rfl⟩
  | cons c r =>
    have hc := List.head_dropWhile_not (· != q) (l := t) (by simp [hd])
    simp only [hd, List.head_cons, bne_eq_false_iff_eq] at hc
    subst hc
    rw [hd] at ht
    exact .inr ⟨r, ht.symm, rfl⟩

/-- A text is cut at the first place where the condition holds. -/
theorem cutAt_eq_of {p : Text → Bool} {s t : Text} (hs : ∀ u c v, s = u ++ c :: v → p (c :: v ++ t) = false)
    (ht : t = [] ∨ p t = true) : cutAt p (s ++ t) = (s, t) := by
  have hcut : cutAt p t = ([], t) := by
    rcases ht with rfl | ht
    · rfl
    · exact cutAt_of_pos ht
  rw [cutAt_append_of_neg hs, hcut, List.append_nil]

theorem exists_cutAt (p : Text → Bool) (t : Text) : ∃ s r, t = s ++ r ∧
    (∀ u c v, s = u ++ c :: v → p (c :: v ++ r) = false) ∧ (r = [] ∨ p r = true) :=
  ⟨_, _, (cutAt_append p t).symm, fun _ _ _ h => cutAt_fst_of_eq h, cutAt_snd p t⟩

end Text

namespace Element

theorem isAttributeChar_of_isBlank {c : Char} (h : Text.isBlank c = true) : isAttributeChar c = false := by
  simp [isAttributeChar, h]

theorem isNameChar_of_isBlank {c : Char} (h : Text.isBlank c = true) : isNameChar c = false := by
  simp only [Text.isBlank, Bool.or_eq_true, beq_iff_eq] at h
  obtain (((rfl | rfl) | rfl) | rfl) | rfl := h <;> decide

end Element

/-! ## Values and attributes -/

namespace Attribute

/-- Where a value without quotes may end. -/
def EndsBare (r : Text) : Prop :=
  r = [] ∨ (∃ c u, r = c :: u ∧ (Text.isBlank c = true ∨ c = '>')) ∨ ∃ u, r = '/' :: '>' :: u

/-- `IsValue t v r`: what stands behind an `=` is `t`, which is the value `v` as it is written and then `r`. -/
inductive IsValue : Text → Text → Text → Prop where
  | quoted {b v r : Text} {q : Char} (hb : Text.Blank b) (hq : q = '"' ∨ q = '\'') (hv : q ∉ v) :
      IsValue (b ++ q :: (v ++ q :: r)) v r
  /-- The text ends before the second quote. -/
  | cut {b v : Text} {q : Char} (hb : Text.Blank b) (hq : q = '"' ∨ q = '\'') (hv : q ∉ v) : IsValue (b ++ q :: v) v []
  | bare {b v r : Text} (hb : Text.Blank b)
      (hstart : ∀ c ∈ (v ++ r).head?, Text.isBlank c = false ∧ c ≠ '"' ∧ c ≠ '\'')
      (hv : ∀ c ∈ v, Text.isBlank c = false ∧ c ≠ '>') (hslash : ¬(v.getLast? = some '/' ∧ r.head? = some '>'))
      (hend : EndsBare r) : IsValue (b ++ (v ++ r)) v r

/-- `Spells t a r`: the text `t` is the attribute `a` as it may be written, and then `r`. -/
inductive Spells : Text → Attribute Text → Text → Prop where
  | bare {name r : Text} (hn : Element.isAttributeSpelling name = true)
      (hend : ∀ c ∈ r.head?, Element.isAttributeChar c = false) (hequals : (Text.skipBlanks r).head? ≠ some '=') :
      Spells (name ++ r) ⟨Text.fold name, none⟩ r
  | valued {name b t v r : Text} (hn : Element.isAttributeSpelling name = true) (hb : Text.Blank b)
      (hv : IsValue t v r) : Spells (name ++ (b ++ '=' :: t)) ⟨Text.fold name, some (Reference.decode v)⟩ r

theorem isBlank_of_quote {q : Char} (hq : q = '"' ∨ q = '\'') : Text.isBlank q = false := by
  rcases hq with rfl | rfl <;> rfl

theorem endsBareValue_iff {c : Char} {r : Text} : endsBareValue (c :: r) = true ↔ EndsBare (c :: r) := by
  simp only [endsBareValue, EndsBare, Bool.or_eq_true, Bool.and_eq_true, beq_iff_eq, List.head?_eq_some_iff]
  constructor
  · rintro (h | ⟨rfl, u, rfl⟩)
    · exact .inr (.inl ⟨c, r, rfl, h⟩)
    · exact .inr (.inr ⟨u, rfl⟩)
  · rintro (h | ⟨d, u, h, hd⟩ | ⟨u, h⟩)
    · cases h
    · obtain ⟨rfl, rfl⟩ := List.cons.inj h
      exact .inl hd
    · obtain ⟨rfl, rfl⟩ := List.cons.inj h
      exact .inr ⟨rfl, u, rfl⟩

/-- A value without quotes does not end in the middle. -/
theorem endsBareValue_inside {v r u w : Text} {c : Char} (hv : ∀ c ∈ v, Text.isBlank c = false ∧ c ≠ '>')
    (hslash : ¬(v.getLast? = some '/' ∧ r.head? = some '>')) (h : v = u ++ c :: w) :
    endsBareValue (c :: w ++ r) = false := by
  subst h
  obtain ⟨hblank, hgt⟩ := hv c (by simp)
  rw [Bool.eq_false_iff]
  intro hend
  rcases endsBareValue_iff.1 hend with h | ⟨d, s, h, hd⟩ | ⟨s, h⟩
  · cases h
  · obtain ⟨rfl, -⟩ := List.cons.inj h
    exact hd.elim (fun hd => nomatch hblank.symm.trans hd) hgt
  · obtain ⟨rfl, hs⟩ := List.cons.inj h
    cases w with
    | nil => exact hslash ⟨List.getLast?_concat, List.head?_eq_some_iff.2 ⟨s, hs⟩⟩
    | cons d w =>
      obtain ⟨rfl, -⟩ := List.cons.inj hs
      exact (hv '>' (by simp)).2 rfl

/-- **A value is read as it is spelled.** -/
theorem IsValue.readValue {t v r : Text} (h : IsValue t v r) : readValue t = (v, r) := by
  cases h with
  | @quoted b _ _ q hb hq hv =>
    have hne := Text.ne_of_forall_ne hv
    have hs : Text.skipBlanks (b ++ q :: (v ++ q :: r)) = q :: (v ++ q :: r) := by
      rw [Text.skipBlanks_append hb, Text.skipBlanks_cons (isBlank_of_quote hq)]
    rw [readValue_quoted hq hs, Text.takeWhile_append_cons hne (by simp), Text.dropWhile_append_cons hne (by simp),
      List.drop_one, List.tail_cons]
  | @cut b _ q hb hq hv =>
    have hne := Text.ne_of_forall_ne hv
    have hs : Text.skipBlanks (b ++ q :: v) = q :: v := by
      rw [Text.skipBlanks_append hb, Text.skipBlanks_cons (isBlank_of_quote hq)]
    rw [readValue_quoted hq hs, List.takeWhile_eq_self_iff.2 hne, List.dropWhile_eq_nil_iff.2 hne, List.drop_nil]
  | @bare b _ _ hb hstart hv hslash hend =>
    have hs : Text.skipBlanks (b ++ (v ++ r)) = v ++ r := by
      rw [Text.skipBlanks_append hb]
      cases hvr : v ++ r with
      | nil => rfl
      | cons c s => exact Text.skipBlanks_cons (hstart c (by rw [hvr]; rfl)).1 s
    rw [readValue_bare (by rw [hs]; exact fun c hc => (hstart c hc).2), hs]
    refine Text.cutAt_eq_of (fun u c w => endsBareValue_inside hv hslash) ?_
    cases r with
    | nil => exact .inl rfl
    | cons c r => exact .inr (endsBareValue_iff.2 hend)

theorem inside_of_endsBareValue {v r : Text} (h : ∀ u c w, v = u ++ c :: w → endsBareValue (c :: w ++ r) = false) :
    (∀ c ∈ v, Text.isBlank c = false ∧ c ≠ '>') ∧ ¬(v.getLast? = some '/' ∧ r.head? = some '>') := by
  constructor
  · intro c hc
    obtain ⟨u, w, hv⟩ := List.append_of_mem hc
    have hinside := h u c w hv
    simp only [List.cons_append, endsBareValue, Bool.or_eq_false_iff, beq_eq_false_iff_ne] at hinside
    exact ⟨hinside.1.1, hinside.1.2⟩
  · rintro ⟨hlast, hr⟩
    obtain ⟨u, hv⟩ := List.getLast?_eq_some_iff.1 hlast
    have hinside := h u '/' [] hv
    simp [endsBareValue, hr] at hinside

theorem isValue_quoted {b : Text} {q : Char} (hb : Text.Blank b) (hq : q = '"' ∨ q = '\'') (r : Text) :
    IsValue (b ++ q :: r) (r.takeWhile (· != q)) ((r.dropWhile (· != q)).drop 1) := by
  obtain ⟨v, hv, htake, ⟨rfl, hdrop⟩ | ⟨s, rfl, hdrop⟩⟩ := Text.upTo_cases q r
  · rw [htake, hdrop]
    exact .cut hb hq hv
  · rw [htake, hdrop]
    exact .quoted hb hq hv

theorem isValue_bare {b t : Text} (hb : Text.Blank b)
    (hstart : ∀ c ∈ t.head?, Text.isBlank c = false ∧ c ≠ '"' ∧ c ≠ '\'') :
    IsValue (b ++ t) (Text.cutAt endsBareValue t).1 (Text.cutAt endsBareValue t).2 := by
  have hcut := Text.cutAt_append endsBareValue t
  have hinside := inside_of_endsBareValue fun u c w hu => Text.cutAt_fst_of_eq (t := t) (u := u) (c := c) (v := w) hu
  have hend := Text.cutAt_snd endsBareValue t
  generalize Text.cutAt endsBareValue t = p at hcut hinside hend
  obtain ⟨v, r⟩ := p
  dsimp only at hcut hinside hend ⊢
  subst hcut
  refine .bare hb hstart hinside.1 hinside.2 ?_
  cases r with
  | nil => exact .inl rfl
  | cons c r => exact endsBareValue_iff.1 (hend.resolve_left (List.cons_ne_nil c r))

/-- **Whatever stands behind an `=`**, what is read of it is a value. -/
theorem isValue_readValue (t : Text) : IsValue t (Attribute.readValue t).1 (Attribute.readValue t).2 := by
  obtain ⟨b, hb, ht⟩ := Text.exists_blank t
  by_cases hq : ∃ q r, (q = '"' ∨ q = '\'') ∧ Text.skipBlanks t = q :: r
  · obtain ⟨q, r, hq, hs⟩ := hq
    have hvalue := isValue_quoted hb hq r
    rw [← hs, ← ht] at hvalue
    rwa [readValue_quoted hq hs]
  · have hstart : ∀ c ∈ (Text.skipBlanks t).head?, c ≠ '"' ∧ c ≠ '\'' := fun c hc => by
      obtain ⟨r, hr⟩ := List.head?_eq_some_iff.1 hc
      exact not_or.1 fun hcq => hq ⟨c, r, hcq, hr⟩
    have hvalue := isValue_bare hb fun c hc => ⟨Text.not_isBlank_of_mem_head?_skipBlanks hc, hstart c hc⟩
    rw [← ht] at hvalue
    rwa [readValue_bare hstart]

/-- An attribute is read as it is spelled, and blanks that follow it are passed over. -/
theorem Spells.read {t r : Text} {a : Attribute Text} (h : Spells t a r) :
    (read t).1 = a ∧ Text.skipBlanks (read t).2 = Text.skipBlanks r := by
  cases h with
  | @bare name _ hn hend hequals =>
    have hchars := (Element.isAttributeSpelling_iff.1 hn).2
    have hparts := Text.run_append hchars hend
    rw [read_of_ne (by rwa [hparts.2]), hparts.1, hparts.2]
    exact ⟨rfl, List.dropWhile_idempotent _ r⟩
  | @valued name b u v _ hn hb hv =>
    have hchars := (Element.isAttributeSpelling_iff.1 hn).2
    have hend : ∀ c ∈ (b ++ '=' :: u).head?, Element.isAttributeChar c = false :=
      Text.forall_head?_append hb (fun _ hc => Element.isAttributeChar_of_isBlank hc) rfl
    have hparts := Text.run_append hchars hend
    have hequals : Text.skipBlanks (b ++ '=' :: u) = '=' :: u := by
      rw [Text.skipBlanks_append hb]
      exact Text.skipBlanks_cons (by decide) u
    rw [read_of_equals (by rw [hparts.2, hequals]), hparts.1, hv.readValue]
    exact ⟨rfl, rfl⟩

theorem Spells.exists_cons {t r : Text} {a : Attribute Text} (h : Spells t a r) :
    ∃ c u, t = c :: u ∧ Element.isAttributeChar c = true := by
  have hname : ∀ {name : Text} (u : Text), Element.isAttributeSpelling name = true →
      ∃ c s, name ++ u = c :: s ∧ Element.isAttributeChar c = true := by
    intro name u hn
    obtain ⟨hne, hchars⟩ := Element.isAttributeSpelling_iff.1 hn
    obtain ⟨c, n, rfl⟩ := List.exists_cons_of_ne_nil hne
    exact ⟨c, n ++ u, rfl, hchars c (List.mem_cons_self ..)⟩
  cases h with
  | bare hn => exact hname r hn
  | valued hn => exact hname _ hn

/-- **Whatever begins with a character of a name**, what is read of it is an attribute. -/
theorem spells_read {c : Char} {t : Text} (hc : Element.isAttributeChar c = true) :
    ∃ b, Text.Blank b ∧ Spells (c :: t) (read (c :: t)).1 (b ++ (read (c :: t)).2) := by
  have hn : Element.isAttributeSpelling ((c :: t).takeWhile Element.isAttributeChar) = true := by
    refine Element.isAttributeSpelling_iff.2 ⟨?_, fun d hd => List.mem_takeWhile_imp hd⟩
    rw [List.takeWhile_cons_of_pos hc]
    exact List.cons_ne_nil _ _
  have hparts := List.takeWhile_append_dropWhile (p := Element.isAttributeChar) (l := c :: t)
  have hend := List.head?_dropWhile_not Element.isAttributeChar (c :: t)
  obtain ⟨b, hb, hrest⟩ := Text.exists_blank ((c :: t).dropWhile Element.isAttributeChar)
  by_cases hequals : (Text.skipBlanks ((c :: t).dropWhile Element.isAttributeChar)).head? = some '='
  · obtain ⟨u, hu⟩ := List.head?_eq_some_iff.1 hequals
    rw [hu] at hrest
    have hvalued := Spells.valued hn hb (isValue_readValue u)
    rw [← hrest, hparts] at hvalued
    rw [read_of_equals hu]
    exact ⟨[], by simp [Text.Blank], hvalued⟩
  · have hbare := Spells.bare hn (fun d hd => by rw [Option.mem_def.1 hd] at hend; simpa using hend) hequals
    rw [hparts] at hbare
    rw [read_of_ne hequals]
    exact ⟨b, hb, hrest ▸ hbare⟩

end Attribute

/-! ## Tags -/

namespace Tag

/-- `Spells t g`: the text `t` behind a tag's name is the tag `g` as it may be written, and then the rest of `g`. -/
inductive Spells : Text → Tag → Prop where
  | close (z : Text) : Spells ('>' :: z) ⟨[], false, z⟩
  | slash (z : Text) : Spells ('/' :: '>' :: z) ⟨[], true, z⟩
  /-- The text ends before the tag does. -/
  | cut : Spells [] ⟨[], false, []⟩
  /-- Blanks, stray slashes, equals signs, brackets and quotes are passed over. -/
  | skip {c : Char} {t : Text} {g : Tag} (hc : Element.isAttributeChar c = false) (hgt : c ≠ '>')
      (hslash : ¬(c = '/' ∧ t.head? = some '>')) (h : Spells t g) : Spells (c :: t) g
  | cons {t r : Text} {a : Attribute Text} {g : Tag} (ha : Attribute.Spells t a r) (h : Spells r g) :
      Spells t (g.cons a)

theorem Spells.blanks : ∀ {b t : Text} {g : Tag}, Text.Blank b → Spells t g → Spells (b ++ t) g
  | [], _, _, _, h => h
  | c :: b, t, g, hb, h => by
    obtain ⟨hc, hb⟩ := List.forall_mem_cons.1 hb
    refine .skip (Element.isAttributeChar_of_isBlank hc) ?_ ?_ (h.blanks hb)
    · rintro rfl
      cases hc
    · rintro ⟨rfl, -⟩
      cases hc

theorem Spells.of_skipBlanks {t : Text} {g : Tag} (h : Spells (Text.skipBlanks t) g) : Spells t g := by
  obtain ⟨b, hb, ht⟩ := Text.exists_blank t
  exact ht ▸ h.blanks hb

/-- Blanks before a tag's attributes and its end do not count. -/
theorem readAll_congr {t u : Text} (h : Text.skipBlanks t = Text.skipBlanks u) : readAll t = readAll u := by
  cases hs : Text.skipBlanks u with
  | nil => rw [readAll_of_nil hs, readAll_of_nil (h.trans hs)]
  | cons c r =>
    by_cases hc : Element.isAttributeChar c = true
    · rw [readAll_of_isAttributeChar hs hc, readAll_of_isAttributeChar (h.trans hs) hc]
    by_cases hgt : c = '>'
    · subst hgt
      rw [readAll_of_gt hs, readAll_of_gt (h.trans hs)]
    by_cases hslash : c = '/' ∧ r.head? = some '>'
    · obtain ⟨rfl, hr⟩ := hslash
      obtain ⟨v, rfl⟩ := List.head?_eq_some_iff.1 hr
      rw [readAll_of_slash_gt hs, readAll_of_slash_gt (h.trans hs)]
    · have hc : Element.isAttributeChar c = false := by simpa using hc
      rw [readAll_of_not_isAttributeChar hs hgt hslash hc, readAll_of_not_isAttributeChar (h.trans hs) hgt hslash hc]

/-- **A tag is read as it is spelled.** -/
theorem Spells.readAll {t : Text} {g : Tag} (h : Spells t g) : Tag.readAll t = g := by
  induction h with
  | close z => exact readAll_gt z
  | slash z => exact readAll_of_slash_gt (Text.skipBlanks_cons (by decide) _)
  | cut => exact readAll_of_nil rfl
  | @skip c t g hc hgt hslash _ ih =>
    by_cases hb : Text.isBlank c = true
    · rw [readAll_congr (List.dropWhile_cons_of_pos hb), ih]
    · rw [readAll_of_not_isAttributeChar (Text.skipBlanks_cons (by simpa using hb) t) hgt hslash hc, ih]
  | @cons t r a g ha _ ih =>
    obtain ⟨c, u, rfl, hc⟩ := ha.exists_cons
    obtain ⟨hread, hrest⟩ := ha.read
    rw [readAll_of_isAttributeChar (Text.skipBlanks_cons (isBlank_of_isAttributeChar hc).1 u) hc, hread,
      readAll_congr hrest, ih]

/-- **Whatever stands behind a tag's name**, what is read of it is a tag. -/
theorem spells_readAll (t : Text) : Spells t (Tag.readAll t) := by
  fun_induction Tag.readAll t with
  | case1 t h => exact .of_skipBlanks (h ▸ .cut)
  | case2 t r h => exact .of_skipBlanks (h ▸ .close r)
  | case3 t r h => exact .of_skipBlanks (h ▸ .slash r)
  | case4 t c r hgt hslash h hc a ih =>
    obtain ⟨b, hb, ha⟩ := Attribute.spells_read (t := r) hc
    exact .of_skipBlanks (h ▸ .cons ha (ih.blanks hb))
  | case5 t c r hgt hslash h hc ih =>
    refine .of_skipBlanks (h ▸ .skip (by simpa using hc) hgt ?_ ih)
    rintro ⟨rfl, hhead⟩
    obtain ⟨u, rfl⟩ := List.head?_eq_some_iff.1 hhead
    exact hslash u rfl rfl

/-- **The grammar says of every text what it is read as.** -/
theorem spells_iff {t : Text} {g : Tag} : Spells t g ↔ Tag.readAll t = g :=
  ⟨Spells.readAll, fun h => h ▸ spells_readAll t⟩

end Tag

/-! ## Start tags -/

namespace Span

variable {name t : Text} {g : Tag}

/-- How reading goes on behind a start tag: with raw text, if the element is one of raw text and open. -/
def behindTag (name : Text) (selfClosing : Bool) (z : Text) : Span :=
  if !selfClosing && Element.isRawText name then ofRawText name z else ⟨[], z⟩

/-- `<`, a name and a tag are read together, with what belongs to them behind. -/
theorem read_of_spells (hn : Element.isTagSpelling name = true) (hend : ∀ c ∈ t.head?, Element.isNameChar c = false)
    (hg : Tag.Spells t g) :
    read ('<' :: (name ++ t)) =
      let selfClosing := g.slashed || Element.isVoid (Text.fold name)
      let behind := behindTag (Text.fold name) selfClosing g.rest
      ⟨.startTag (Text.fold name) (Attribute.keepFirst g.attributes) selfClosing :: behind.tokens, behind.rest⟩ := by
  have hchars := Element.isNameChar_of_isTagSpelling hn
  have hparts := Text.run_append hchars hend
  rw [read_of_isTagSpelling hn, ofStartTag, hparts.1, hparts.2, Tag.read, hg.readAll]
  simp only [behindTag]
  split <;> rfl

end Span
end SafeMarkup
