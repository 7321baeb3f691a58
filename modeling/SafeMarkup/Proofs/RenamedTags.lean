import SafeMarkup.Proofs.Renaming
/-!
# Tags under another nonce

A tag and its renaming are read alike: the same attributes begin and end at the same places, their names and values are
renamings of each other, and the same of them are left out for their names (`Marker.Renamed.readTag`).  No reference of
the tag may stand for `$`.
-/
namespace SafeMarkup

structure Tag.Related (R : Text → Text → Prop) (g g' : Tag) : Prop where
  attributes : List.Forall₂ (Attribute.Related R) g.attributes g'.attributes
  slashed : g.slashed = g'.slashed
  rest : R g.rest g'.rest

namespace Marker

theorem isAttributeChar_of_isMarkerChar {c : Char} (h : isMarkerChar c = true) : Element.isAttributeChar c = true := by
  have hne : ∀ d : Char, isMarkerChar d = false → (c == d) = false := fun d hd => by
    rw [beq_eq_false_iff_ne]
    exact ne_of_isMarkerChar h hd
  simp only [Element.isAttributeChar, Text.isBlank, bne, hne ' ' (by decide), hne '\t' (by decide),
    hne '\n' (by decide), hne '\x0c' (by decide), hne '\r' (by decide), hne '/' (by decide), hne '>' (by decide),
    hne '=' (by decide), hne '<' (by decide), hne '"' (by decide), hne '\'' (by decide)]
  rfl

theorem endsBareValue_of_isMarkerChar (c : Char) (t : Text) (h : isMarkerChar c = true) :
    Attribute.endsBareValue (c :: t) = false := by
  obtain ⟨hblank, hgt, hslash⟩ := Tag.isBlank_of_isAttributeChar (isAttributeChar_of_isMarkerChar h)
  simp [Attribute.endsBareValue, hblank, hgt, hslash]

variable {nonce nonce' : Text} {k : Nat}

namespace Renamed

theorem skipBlanks {t t' : Text} (h : Renamed nonce nonce' k t t') :
    Renamed nonce nonce' k (Text.skipBlanks t) (Text.skipBlanks t') := (h.run_eq (by decide)).2

theorem endsBareValue_eq {t t' : Text} (h : Renamed nonce nonce' k t t') :
    Attribute.endsBareValue t = Attribute.endsBareValue t' := by
  obtain ⟨rfl, rfl⟩ | ⟨c, s, s', rfl, rfl, -, hs⟩ | ⟨s, s', rfl, rfl⟩ := h.head_cases
  · rfl
  · rw [Attribute.endsBareValue, Attribute.endsBareValue, hs.head?_eq]
  · rfl

/-- The same attributes stand behind another of their name. -/
theorem keepFirst (hk : k ≤ indexLimit) {as bs : List (Attribute Text)}
    (h : List.Forall₂ (Attribute.Related (Renamed nonce nonce' k)) as bs) :
    List.Forall₂ (Attribute.Related (Renamed nonce nonce' k)) (Attribute.keepFirst as) (Attribute.keepFirst bs) := by
  induction h with
  | nil => exact .nil
  | @cons a b as bs hab _ ih =>
    have hname : ∀ {c d : Attribute Text}, c.Related (Renamed nonce nonce' k) d →
        ((c.name != a.name) = true ↔ (d.name != b.name) = true) := by
      intro c d hcd
      rw [bne_iff_ne, bne_iff_ne, not_iff_not]
      exact hcd.name.eq_iff hk hab.name
    exact .cons hab (List.rel_filter (fun _ _ hcd => hname hcd) ih)

section

variable (hn : IsNonce nonce) (hn' : IsNonce nonce')

include hn hn'

/-! ## Attributes and tags -/

/-- What stands up to a character that no marker has, and what stands behind it. -/
theorem upTo {q : Char} (hq : isMarkerChar q = false) {t t' : Text} (h : Renamed nonce nonce' k t t') :
    Renamed nonce nonce' k (t.takeWhile (· != q)) (t'.takeWhile (· != q)) ∧
      Renamed nonce nonce' k ((t.dropWhile (· != q)).drop 1) ((t'.dropWhile (· != q)).drop 1) := by
  have hrun := h.run hn hn' (p := (· != q)) fun c hc => by simpa using ne_of_isMarkerChar hc hq
  refine ⟨hrun.1, hrun.2.drop_one ?_⟩
  intro c hc
  have hstop := List.head?_dropWhile_not (· != q) t
  rw [Option.mem_def.1 hc] at hstop
  obtain rfl : c = q := by simpa using hstop
  rintro rfl
  cases hq

theorem readValue {t t' : Text} (h : Renamed nonce nonce' k t t') :
    Renamed nonce nonce' k (Attribute.readValue t).1 (Attribute.readValue t').1 ∧
      Renamed nonce nonce' k (Attribute.readValue t).2 (Attribute.readValue t').2 := by
  have hs := h.skipBlanks
  by_cases hquoted : ∃ q r, Text.skipBlanks t = q :: r ∧ (q = '"' ∨ q = '\'')
  · obtain ⟨q, r, hb, hq⟩ := hquoted
    have hmarker : isMarkerChar q = false := by rcases hq with rfl | rfl <;> decide
    have hdollar : q ≠ '$' := by rcases hq with rfl | rfl <;> decide
    rw [hb] at hs
    obtain ⟨r', hb', hr⟩ := hs.of_cons hdollar
    rw [Attribute.readValue_quoted hq hb, Attribute.readValue_quoted hq hb']
    exact hr.upTo hn hn' hmarker
  · have hbare : ∀ c ∈ (Text.skipBlanks t).head?, c ≠ '"' ∧ c ≠ '\'' := by
      intro c hc
      obtain ⟨r, hb⟩ := List.head?_eq_some_iff.1 hc
      exact not_or.1 fun hq => hquoted ⟨c, r, hb, hq⟩
    rw [Attribute.readValue_bare hbare, Attribute.readValue_bare (hs.head?_eq ▸ hbare)]
    exact hs.cutAt hn hn' endsBareValue_of_isMarkerChar endsBareValue_eq

theorem readAttribute {t t' : Text} (h : Renamed nonce nonce' k t t') (hd : ¬Reference.StandsIn '$' t) :
    Attribute.Related (Renamed nonce nonce' k) (Attribute.read t).1 (Attribute.read t').1 ∧
      Renamed nonce nonce' k (Attribute.read t).2 (Attribute.read t').2 := by
  have hrun := h.run hn hn' (p := Element.isAttributeChar) fun c hc => isAttributeChar_of_isMarkerChar hc
  have hname := hrun.1.fold hn hn'
  have hs := hrun.2.skipBlanks
  by_cases he : (Text.skipBlanks (t.dropWhile Element.isAttributeChar)).head? = some '='
  · obtain ⟨r, hb⟩ := List.head?_eq_some_iff.1 he
    have hsuffix : '=' :: r <:+ t := hb ▸ (List.dropWhile_suffix _).trans (List.dropWhile_suffix _)
    have hinfix := (Attribute.readValue_infix r).trans ((List.suffix_cons '=' r).trans hsuffix).isInfix
    rw [hb] at hs
    obtain ⟨r', hb', hr⟩ := hs.of_cons (by decide)
    have hvalue := hr.readValue hn hn'
    rw [Attribute.read_of_equals hb, Attribute.read_of_equals hb']
    exact ⟨⟨hname, .some (hvalue.1.decode hn hn' fun hin => hd (hin.mono hinfix))⟩, hvalue.2⟩
  · rw [Attribute.read_of_ne he, Attribute.read_of_ne (hs.head?_eq ▸ he)]
    exact ⟨⟨hname, .none⟩, hs⟩

/-- **The inside of a tag is read alike**, attribute by attribute. -/
theorem readAll {t t' : Text} (h : Renamed nonce nonce' k t t') (hd : ¬Reference.StandsIn '$' t) :
    Tag.Related (Renamed nonce nonce' k) (Tag.readAll t) (Tag.readAll t') := by
  induction t using Tag.readAll.induct generalizing t' with
  | case1 t hb =>
    have hs := h.skipBlanks
    have hb' : Text.skipBlanks t' = [] := by simpa [hb] using hs.isEmpty_eq
    rw [Tag.readAll_of_nil hb, Tag.readAll_of_nil hb']
    exact ⟨.nil, rfl, .nil⟩
  | case2 t r hb =>
    obtain ⟨r', hb', hr⟩ := of_cons (by decide) (hb ▸ h.skipBlanks)
    rw [Tag.readAll_of_gt hb, Tag.readAll_of_gt hb']
    exact ⟨.nil, rfl, hr⟩
  | case3 t r hb =>
    obtain ⟨s', hb', hs⟩ := of_cons (by decide) (hb ▸ h.skipBlanks)
    obtain ⟨r', rfl, hr⟩ := hs.of_cons (by decide)
    rw [Tag.readAll_of_slash_gt hb, Tag.readAll_of_slash_gt hb']
    exact ⟨.nil, rfl, hr⟩
  | case4 t c r hgt hslash hb hc a =>
    rename_i ih
    have hs := h.skipBlanks
    have hsuffix : c :: r <:+ t := hb ▸ List.dropWhile_suffix _
    have hds : ¬Reference.StandsIn '$' (c :: r) := fun hin => hd (hin.mono hsuffix.isInfix)
    -- the attribute may begin with a marker, which begins with the same character under both nonces
    have hhead := hs.head?_eq
    rw [hb] at hs hhead
    obtain ⟨r', hb'⟩ := List.head?_eq_some_iff.1 hhead.symm
    rw [hb'] at hs
    have hread := hs.readAttribute hn hn' hds
    have hrest := ih hread.2 fun hin => hds (hin.mono (Attribute.read_suffix _).isInfix)
    rw [Tag.readAll_of_isAttributeChar hb hc, Tag.readAll_of_isAttributeChar hb' hc]
    exact ⟨.cons hread.1 hrest.attributes, hrest.slashed, hrest.rest⟩
  | case5 t c r hgt hslash hb hc ih =>
    have hdollar : c ≠ '$' := by
      rintro rfl
      exact hc (by decide)
    have hsuffix : r <:+ t := (List.suffix_cons c r).trans (hb ▸ List.dropWhile_suffix _)
    obtain ⟨r', hb', hr⟩ := of_cons hdollar (hb ▸ h.skipBlanks)
    have hslash : ¬(c = '/' ∧ r.head? = some '>') := by
      rintro ⟨rfl, hhead⟩
      obtain ⟨u, rfl⟩ := List.head?_eq_some_iff.1 hhead
      exact hslash u rfl rfl
    rw [Tag.readAll_of_not_isAttributeChar hb hgt hslash (by simpa using hc),
      Tag.readAll_of_not_isAttributeChar hb' hgt (hr.head?_eq ▸ hslash) (by simpa using hc)]
    exact ih hr fun hin => hd (hin.mono hsuffix.isInfix)

/-- **A tag is read alike under both nonces.** -/
theorem readTag (hk : k ≤ indexLimit) {t t' : Text} (h : Renamed nonce nonce' k t t') (hd : ¬Reference.StandsIn '$' t) :
    Tag.Related (Renamed nonce nonce' k) (Tag.read t) (Tag.read t') := by
  have hall := h.readAll hn hn' hd
  exact ⟨keepFirst hk hall.attributes, hall.slashed, hall.rest⟩

end

end Renamed
end Marker
end SafeMarkup
