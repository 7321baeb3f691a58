import SafeMarkup.Proofs.RenamedTags
/-!
# Markup under another nonce

Spans begin and end at the same places in a text and its renaming, whatever the segments cut: no marker opens markup,
ends a comment or belongs to a name of a tag.  So the tokens of both have the same kinds, their texts are renamings of
each other (`Marker.Renamed.tokens`), and so are the texts of the trees (`Marker.Renamed.parse`).
-/
namespace SafeMarkup

namespace Element

theorem dollar_notMem_fold_takeWhile (t : Text) : '$' ∉ Text.fold (Text.fold (t.takeWhile isNameChar)) := by
  intro hm
  obtain ⟨c, hc, he⟩ := List.mem_map.1 hm
  obtain ⟨d, hd, rfl⟩ := List.mem_map.1 hc
  have hname := isNameChar_toLower (isNameChar_toLower (List.mem_takeWhile_imp hd))
  rw [he] at hname
  cases hname

end Element

structure Span.Related (R : Text → Text → Prop) (s s' : Span) : Prop where
  tokens : List.Forall₂ (Token.Related R) s.tokens s'.tokens
  rest : R s.rest s'.rest

namespace Marker

theorem opensMarkup_of_isMarkerChar (c : Char) (t : Text) (h : isMarkerChar c = true) :
    Span.opensMarkup (c :: t) = false :=
  Span.opensMarkup_of_ne (ne_of_isMarkerChar h (by decide)) t

theorem afterEndTag?_of_isMarkerChar (name : Text) (c : Char) (t : Text) (h : isMarkerChar c = true) :
    Span.afterEndTag? name (c :: t) = none := by
  rw [Option.eq_none_iff_forall_not_mem]
  intro rest hr
  obtain ⟨spelled, blanks, -, -, he⟩ := Span.afterEndTag?_eq_some_iff.1 hr
  exact ne_of_isMarkerChar h (by decide) (List.cons.inj he).1

theorem commentEnd_of_isMarkerChar (c : Char) (t : Text) (h : isMarkerChar c = true) :
    ['-', '-', '>'].isPrefixOf (c :: t) = false := by
  rw [List.isPrefixOf_cons_cons, beq_eq_false_iff_ne.2 (ne_of_isMarkerChar h (by decide)).symm, Bool.false_and]

variable {nonce nonce' : Text} {k : Nat}

namespace Renamed

theorem opensMarkup_eq {t t' : Text} (h : Renamed nonce nonce' k t t') :
    Span.opensMarkup t = Span.opensMarkup t' := by
  -- markup is opened by at most three characters, of which a marker can only be behind the first
  obtain ⟨rfl, rfl⟩ | ⟨c, s, s', rfl, rfl, -, hs⟩ | ⟨s, s', rfl, rfl⟩ := h.head_cases
  · rfl
  · by_cases hlt : c = '<'
    · subst hlt
      obtain ⟨rfl, rfl⟩ | ⟨d, u, u', rfl, rfl, -, hu⟩ | ⟨u, u', rfl, rfl⟩ := hs.head_cases
      · rfl
      · by_cases hslash : d = '/'
        · subst hslash
          obtain ⟨rfl, rfl⟩ | ⟨e, v, v', rfl, rfl, -, -⟩ | ⟨v, v', rfl, rfl⟩ := hu.head_cases
          · rfl
          · rfl
          · rfl
        · rw [Span.opensMarkup_of_ne_slash hslash, Span.opensMarkup_of_ne_slash hslash]
      · rfl
    · rw [Span.opensMarkup_of_ne hlt, Span.opensMarkup_of_ne hlt]
  · rfl

/-- An end tag is found alike, and what follows it is renamed. -/
theorem of_afterEndTag? {name t t' rest : Text} (hname : '$' ∉ Text.fold name) (h : Renamed nonce nonce' k t t')
    (hr : Span.afterEndTag? name t = some rest) :
    ∃ rest', Span.afterEndTag? name t' = some rest' ∧ Renamed nonce nonce' k rest rest' := by
  obtain ⟨spelled, blanks, hs, hb, rfl⟩ := Span.afterEndTag?_eq_some_iff.1 hr
  have htag : '$' ∉ '<' :: '/' :: spelled ++ blanks ++ ['>'] := by
    have hblanks : '$' ∉ blanks := fun hm => absurd (hb _ hm) (by decide)
    simp [notMem_of_sameFolded hname hs, hblanks]
  have hsplit : '<' :: '/' :: spelled ++ blanks ++ '>' :: rest =
      '<' :: '/' :: spelled ++ blanks ++ ['>'] ++ rest := by simp
  rw [hsplit] at h
  obtain ⟨rest', rfl, hrest⟩ := h.of_append htag
  exact ⟨rest', Span.afterEndTag?_eq_some_iff.2 ⟨spelled, blanks, hs, hb, by simp⟩, hrest⟩

theorem afterEndTag? {name t t' : Text} (hname : '$' ∉ Text.fold name) (h : Renamed nonce nonce' k t t') :
    Option.Rel (Renamed nonce nonce' k) (Span.afterEndTag? name t) (Span.afterEndTag? name t') :=
  h.optionRel fun hs hr => hs.of_afterEndTag? hname hr

theorem drop {x t t' : Text} (hx : '$' ∉ x) (h : Renamed nonce nonce' k t t') (ht : t = [] ∨ x.isPrefixOf t = true) :
    Renamed nonce nonce' k (t.drop x.length) (t'.drop x.length) := by
  rcases ht with rfl | ht
  · obtain rfl : t' = [] := by simpa using h.isEmpty_eq
    rw [List.drop_nil]
    exact .nil
  · obtain ⟨y, rfl⟩ := List.isPrefixOf_iff_prefix.1 ht
    obtain ⟨y', rfl, hy⟩ := h.of_append hx
    rwa [List.drop_left, List.drop_left]

section

variable (hn : IsNonce nonce) (hn' : IsNonce nonce')

include hn hn'

/-! ## Spans -/

theorem ofRun {t t' : Text} (h : Renamed nonce nonce' k t t') (hd : ¬Reference.StandsIn '$' t)
    (ho : Span.opensMarkup t = false) :
    Span.Related (Renamed nonce nonce' k) (Span.ofRun t) (Span.ofRun t') := by
  have ho' : Span.opensMarkup t' = false := h.opensMarkup_eq ▸ ho
  cases t with
  | nil =>
    obtain rfl : t' = [] := by simpa using h.isEmpty_eq
    exact ⟨.nil, .nil⟩
  | cons c u =>
    obtain ⟨u', rfl⟩ := List.head?_eq_some_iff.1 h.head?_eq.symm
    have hcut := h.cutAt hn hn' opensMarkup_of_isMarkerChar opensMarkup_eq
    have hprefix : (Text.cutAt Span.opensMarkup (c :: u)).1 <+: c :: u := ⟨_, Text.cutAt_append _ _⟩
    rw [Span.ofRun_cons ho, Span.ofRun_cons ho']
    exact ⟨.cons (.text (hcut.1.decode hn hn' fun hin => hd (hin.mono hprefix.isInfix))) .nil, hcut.2⟩

theorem ofComment {t t' : Text} (h : Renamed nonce nonce' k t t') :
    Span.Related (Renamed nonce nonce' k) (Span.ofComment t) (Span.ofComment t') := by
  have hcut := h.cutAt hn hn' commentEnd_of_isMarkerChar fun hs => hs.isPrefixOf_eq (by decide)
  have hend := Text.cutAt_snd (['-', '-', '>'].isPrefixOf ·) t
  exact ⟨.cons (.comment hcut.1) .nil, hcut.2.drop (x := ['-', '-', '>']) (by decide) hend⟩

theorem ofBogus {t t' : Text} (h : Renamed nonce nonce' k t t') :
    Span.Related (Renamed nonce nonce' k) (Span.ofBogus t) (Span.ofBogus t') := by
  have hup := h.upTo hn hn' (q := '>') (by decide)
  exact ⟨.cons (.comment hup.1) .nil, hup.2⟩

theorem ofDoctype {t t' : Text} (h : Renamed nonce nonce' k t t') :
    Span.Related (Renamed nonce nonce' k) (Span.ofDoctype t) (Span.ofDoctype t') := by
  have hup := h.upTo hn hn' (q := '>') (by decide)
  have hrun := h.run hn hn' (p := (· != '>')) fun c hc => by simpa using ne_of_isMarkerChar hc (by decide)
  rw [Span.ofDoctype_eq, Span.ofDoctype_eq, ← hrun.2.isEmpty_eq]
  refine ⟨?_, hup.2⟩
  dsimp only
  split
  · exact .nil
  · exact .cons (.doctype _ _) .nil

theorem ofDeclaration {t t' : Text} (h : Renamed nonce nonce' k t t') :
    Span.Related (Renamed nonce nonce' k) (Span.ofDeclaration t) (Span.ofDeclaration t') := by
  cases hc : ['-', '-'].isPrefixOf t with
  | true =>
    obtain ⟨u, rfl⟩ := List.isPrefixOf_iff_prefix.1 hc
    obtain ⟨u', rfl, hu⟩ := h.of_append (x := ['-', '-']) (by decide)
    exact hu.ofComment hn hn'
  | false =>
    have hc' := (h.isPrefixOf_eq (by decide)).symm.trans hc
    rw [Span.ofDeclaration_of_not_comment hc, Span.ofDeclaration_of_not_comment hc',
      ← isSome_eq_of_rel (h.afterFolded? (by decide))]
    split
    · exact h.ofDoctype hn hn'
    · exact h.ofBogus hn hn'

theorem ofEndTag {t t' : Text} (h : Renamed nonce nonce' k t t') :
    Span.Related (Renamed nonce nonce' k) (Span.ofEndTag t) (Span.ofEndTag t') := by
  have hname := (h.run_eq (p := Element.isNameChar) (by decide)).1
  have hup := h.upTo hn hn' (q := '>') (by decide)
  refine ⟨?_, hup.2⟩
  simp only [Span.ofEndTag, ← hname]
  split
  · exact .nil
  · exact .cons (.endTag _) .nil

theorem ofRawText {name t t' : Text} (hname : '$' ∉ Text.fold name) (h : Renamed nonce nonce' k t t') :
    Span.Related (Renamed nonce nonce' k) (Span.ofRawText name t) (Span.ofRawText name t') := by
  have hmarker : ∀ c s, isMarkerChar c = true → (Span.afterEndTag? name (c :: s)).isSome = false := fun c s hc => by
    rw [afterEndTag?_of_isMarkerChar name c s hc, Option.isSome_none]
  have hcut := h.cutAt hn hn' (p := fun s => (Span.afterEndTag? name s).isSome) hmarker fun hs =>
    isSome_eq_of_rel (hs.afterEndTag? hname)
  have hend := hcut.2.afterEndTag? hname
  rw [Span.ofRawText, Span.ofRawText, ← hcut.1.isEmpty_eq]
  constructor
  · dsimp only
    split
    · exact .cons (.endTag _) .nil
    · exact .cons (.text hcut.1) (.cons (.endTag _) .nil)
  · exact rel_getD hend .nil

variable (hk : k ≤ indexLimit)

include hk

theorem ofStartTag {t t' : Text} (h : Renamed nonce nonce' k t t') (hd : ¬Reference.StandsIn '$' t) :
    Span.Related (Renamed nonce nonce' k) (Span.ofStartTag t) (Span.ofStartTag t') := by
  obtain ⟨hname, hrest⟩ := h.run_eq (p := Element.isNameChar) (by decide)
  have hdrest : ¬Reference.StandsIn '$' (t.dropWhile Element.isNameChar) := fun hin =>
    hd (hin.mono (List.dropWhile_suffix _).isInfix)
  have htag := hrest.readTag hn hn' hk hdrest
  simp only [Span.ofStartTag, ← hname, ← htag.slashed]
  split
  · have hraw := htag.rest.ofRawText hn hn' (Element.dollar_notMem_fold_takeWhile t)
    exact ⟨.cons (.startTag htag.attributes) hraw.tokens, hraw.rest⟩
  · exact ⟨.cons (.startTag htag.attributes) .nil, htag.rest⟩

theorem ofMarkup {t t' : Text} (h : Renamed nonce nonce' k t t') (hd : ¬Reference.StandsIn '$' t) :
    Span.Related (Renamed nonce nonce' k) (Span.ofMarkup t) (Span.ofMarkup t') := by
  have hstart := h.ofStartTag hn hn' hk hd
  obtain ⟨rfl, rfl⟩ | ⟨c, s, s', rfl, rfl, -, hs⟩ | ⟨s, s', rfl, rfl⟩ := h.head_cases
  · exact hstart
  · by_cases hbang : c = '!'
    · subst hbang
      exact hs.ofDeclaration hn hn'
    by_cases hquestion : c = '?'
    · subst hquestion
      exact h.ofBogus hn hn'
    by_cases hslash : c = '/'
    · subst hslash
      exact hs.ofEndTag hn hn'
    rw [Span.ofMarkup_of_ne _ hbang hquestion hslash, Span.ofMarkup_of_ne _ hbang hquestion hslash]
    exact hstart
  · exact hstart

/-- **A span is read alike under both nonces.** -/
theorem read {t t' : Text} (h : Renamed nonce nonce' k t t') (hd : ¬Reference.StandsIn '$' t) :
    Span.Related (Renamed nonce nonce' k) (Span.read t) (Span.read t') := by
  rw [Span.read, Span.read, ← h.opensMarkup_eq]
  split
  · rename_i ho
    obtain ⟨u, rfl⟩ := Span.exists_lt_of_opensMarkup ho
    obtain ⟨u', rfl, hu⟩ := h.of_cons (by decide)
    exact hu.ofMarkup hn hn' hk fun hin => hd (hin.mono (List.suffix_cons '<' u).isInfix)
  · rename_i ho
    exact h.ofRun hn hn' hd (by simpa using ho)

/-! ## Tokens and trees -/

/-- **Renamed markup has the same tokens, with their texts renamed.** -/
theorem tokens {t t' : Text} (h : Renamed nonce nonce' k t t') (hd : ¬Reference.StandsIn '$' t) :
    List.Forall₂ (Token.Related (Renamed nonce nonce' k)) (SafeMarkup.tokens t) (SafeMarkup.tokens t') := by
  induction t using SafeMarkup.tokens.induct generalizing t' with
  | case1 =>
    obtain rfl : t' = [] := by simpa using h.isEmpty_eq
    rw [tokens_nil]
    exact .nil
  | case2 c t s =>
    rename_i ih
    obtain ⟨u', rfl⟩ := List.head?_eq_some_iff.1 h.head?_eq.symm
    have hread := h.read hn hn' hk hd
    obtain ⟨x, hx, -, -⟩ := Span.read_takes (List.cons_ne_nil c t)
    have hrest := ih hread.rest fun hin => hd (hin.mono (List.IsSuffix.isInfix ⟨x, hx.symm⟩))
    rw [tokens_cons, tokens_cons]
    exact List.rel_append hread.tokens hrest

/-- **Renamed markup has the same tree, with its texts renamed.** -/
theorem parse {t t' : Text} (h : Renamed nonce nonce' k t t') (hd : ¬Reference.StandsIn '$' t) :
    (Node.parse t).Related (Renamed nonce nonce' k) (Node.parse t') :=
  Node.related_ofTokens textRelation (h.tokens hn hn' hk hd)

end

end Renamed
end Marker
end SafeMarkup
