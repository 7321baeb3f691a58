import SafeMarkup.Proofs.RenamedMarkup
import SafeMarkup.Proofs.DocumentOrder
/-!
# What reading leaves out

Reading leaves out the content of a doctype, what an end tag holds behind its name, and the attributes whose name an
earlier attribute of the tag has (`omitted`).  All else that could hold a marker is in the tree: the marker of a number
stands in a text as often as in its tree and in what is left out (`Marker.times_parse`).
-/
namespace SafeMarkup

/-! ## The texts that are left out -/

namespace Attribute

def texts (a : Attribute Text) : List Text := [a.name, a.value.getD []]

/-- The attributes whose name stands earlier, among some names or in the list. -/
def repeated (earlier : List Text) : List (Attribute Text) → List (Attribute Text)
  | [] => []
  | a :: as => (if a.name ∈ earlier then [a] else []) ++ repeated (a.name :: earlier) as

end Attribute

namespace Span

/-- What is left out of a span whose `<` has been read. -/
def omittedMarkup : Text → List Text
  | '!' :: t =>
    if ['-', '-'].isPrefixOf t then []
    else if (Text.afterFolded? ['d', 'o', 'c', 't', 'y', 'p', 'e'] t).isSome then [t.takeWhile (· != '>')]
    else []
  | '?' :: _ => []
  | '/' :: t => [(t.takeWhile (· != '>')).dropWhile Element.isNameChar]
  | t => (Attribute.repeated [] (Tag.readAll (t.dropWhile Element.isNameChar)).attributes).flatMap Attribute.texts

/-- What is left out of the first span of a text. -/
def omitted (t : Text) : List Text := if opensMarkup t then omittedMarkup (t.drop 1) else []

end Span

/-- The texts that are left out when a text is read. -/
def omitted : Text → List Text
  | [] => []
  | c :: t => Span.omitted (c :: t) ++ omitted (Span.read (c :: t)).rest
termination_by t => t.length
decreasing_by exact Span.read_length

theorem omitted_nil : omitted [] = [] := by rw [omitted]

theorem omitted_cons (c : Char) (t : Text) :
    omitted (c :: t) = Span.omitted (c :: t) ++ omitted (Span.read (c :: t)).rest := by
  rw [omitted]

theorem Attribute.perm_repeated : ∀ (as : List (Attribute Text)) (earlier : List Text),
    ((keepFirst as).filter (·.name ∉ earlier) ++ repeated earlier as).Perm as
  | [], _ => .nil
  | a :: as, earlier => by
    have hrest : ((keepFirst as).filter (·.name != a.name)).filter (·.name ∉ earlier) =
        (keepFirst as).filter (·.name ∉ a.name :: earlier) := by
      rw [List.filter_filter]
      refine List.filter_congr fun b _ => ?_
      rw [Bool.eq_iff_iff]
      simp [and_comm]
    have ih := perm_repeated as (a.name :: earlier)
    rw [keepFirst, repeated, List.filter_cons, hrest]
    by_cases ha : a.name ∈ earlier
    · rw [if_neg (by simpa using ha), if_pos ha]
      exact List.perm_middle.trans (ih.cons a)
    · rw [if_pos (by simpa using ha), if_neg ha, List.nil_append]
      exact ih.cons a

theorem Span.omittedMarkup_of_ne {c : Char} (t : Text) (h1 : c ≠ '!') (h2 : c ≠ '?') (h3 : c ≠ '/') :
    omittedMarkup (c :: t) =
      (Attribute.repeated [] (Tag.readAll ((c :: t).dropWhile Element.isNameChar)).attributes).flatMap
        Attribute.texts := by
  unfold omittedMarkup
  split
  · rename_i he
    exact absurd (List.cons.inj he).1 h1
  · rename_i he
    exact absurd (List.cons.inj he).1 h2
  · rename_i he
    exact absurd (List.cons.inj he).1 h3
  · rfl

namespace Marker

/-! ## How often a marker stands in texts -/

/-- A text in which `$` stands in markers of numbers below `k` only. -/
abbrev Whole (nonce : Text) (k : Nat) (t : Text) : Prop := Renamed nonce nonce k t t

/-- How often the marker of a number stands in some texts. -/
def times (nonce : Text) (i : Nat) (ts : List Text) : Nat := (ts.flatMap (indexes nonce)).count i

variable {nonce : Text} {k i : Nat}

theorem times_nil : times nonce i [] = 0 := rfl

theorem times_append (ts us : List Text) : times nonce i (ts ++ us) = times nonce i ts + times nonce i us := by
  rw [times, List.flatMap_append, List.count_append, times, times]

theorem times_cons (t : Text) (ts : List Text) : times nonce i (t :: ts) = times nonce i [t] + times nonce i ts :=
  times_append [t] ts

theorem times_texts (a : Attribute Text) :
    times nonce i a.texts = times nonce i [a.name] + times nonce i [a.value.getD []] := times_cons _ _

theorem times_singleton (t : Text) : times nonce i [t] = (indexes nonce t).count i := by
  rw [times, List.flatMap_singleton]

theorem times_empty : times nonce i [[]] = 0 := by
  rw [times_singleton, indexes_nil]
  rfl

theorem times_perm {ts us : List Text} (h : ts.Perm us) : times nonce i ts = times nonce i us :=
  (h.flatMap_right _).count_eq i

theorem indexes_append_of_notMem {x : Text} (hx : '$' ∉ x) (y : Text) : indexes nonce (x ++ y) = indexes nonce y := by
  induction x with
  | nil => rfl
  | cons c x ih =>
    rw [List.mem_cons, not_or] at hx
    rw [List.cons_append, indexes_char (Ne.symm hx.1), ih hx.2]

theorem times_append_of_notMem {x : Text} (hx : '$' ∉ x) (y : Text) :
    times nonce i [x ++ y] = times nonce i [y] := by
  rw [times_singleton, times_singleton, indexes_append_of_notMem hx]

theorem times_char {c : Char} (hc : c ≠ '$') (t : Text) : times nonce i [c :: t] = times nonce i [t] :=
  times_append_of_notMem (x := [c]) (by simpa using hc.symm) t

theorem times_dropWhile {p : Char → Bool} (hp : p '$' = false) (t : Text) :
    times nonce i [t.dropWhile p] = times nonce i [t] := by
  have hx : '$' ∉ t.takeWhile p := fun hm => by
    rw [List.mem_takeWhile_imp hm] at hp
    cases hp
  conv => rhs; rw [← List.takeWhile_append_dropWhile (p := p) (l := t), times_append_of_notMem hx]

theorem times_skipBlanks (t : Text) : times nonce i [t] = times nonce i [Text.skipBlanks t] :=
  (times_dropWhile (by decide) t).symm

theorem Whole.of_append {x y : Text} (hx : '$' ∉ x) (h : Whole nonce k (x ++ y)) : Whole nonce k y := by
  obtain ⟨y', hy, h⟩ := Renamed.of_append hx h
  rwa [← List.append_cancel_left hy] at h

theorem Whole.of_cons {c : Char} {t : Text} (hc : c ≠ '$') (h : Whole nonce k (c :: t)) : Whole nonce k t :=
  Whole.of_append (x := [c]) (by simpa using hc.symm) h

theorem Renamed.marked (hk : k ≤ indexLimit) {t t' : Text} {nonce' : Text} (h : Renamed nonce nonce' k t t') :
    Marked nonce t (indexes nonce t) := by
  induction h with
  | nil =>
    rw [indexes_nil]
    exact .nil
  | char hc _ ih =>
    rw [indexes_char hc]
    exact .char hc ih
  | marker hi _ ih =>
    rw [indexes_marker (Nat.lt_of_lt_of_le hi hk)]
    exact .marker (Nat.lt_of_lt_of_le hi hk) ih

section

variable (hk : k ≤ indexLimit)

include hk

theorem Renamed.indexes_append {x x' nonce' : Text} (h : Renamed nonce nonce' k x x') (y : Text) :
    indexes nonce (x ++ y) = indexes nonce x ++ indexes nonce y := by
  induction h with
  | nil =>
    rw [indexes_nil]
    rfl
  | char hc _ ih => rw [List.cons_append, indexes_char hc, indexes_char hc, ih]
  | marker hi _ ih =>
    have hlimit := Nat.lt_of_lt_of_le hi hk
    rw [List.append_assoc, indexes_marker hlimit, indexes_marker hlimit, ih, List.cons_append]

theorem Renamed.indexes_fold (hn : IsNonce nonce) {t t' nonce' : Text} (h : Renamed nonce nonce' k t t') :
    indexes nonce (Text.fold t) = indexes nonce t := by
  induction h with
  | nil => rfl
  | @char c t t' hc _ ih =>
    change indexes nonce (c.toLower :: Text.fold t) = _
    rw [indexes_char hc, indexes_char (Text.toLower_ne rfl hc), ih]
  | @marker i t t' hi _ ih =>
    have hlimit := Nat.lt_of_lt_of_le hi hk
    have hfold : Text.fold (write nonce i ++ t) = Text.fold (write nonce i) ++ Text.fold t := List.map_append
    rw [hfold, fold_write hn, indexes_marker hlimit, indexes_marker hlimit, ih]

theorem times_whole_append {x : Text} (h : Whole nonce k x) (y : Text) :
    times nonce i [x ++ y] = times nonce i [x] + times nonce i [y] := by
  rw [times_singleton, times_singleton, times_singleton, h.indexes_append hk, List.count_append]

variable (hn : IsNonce nonce)

include hn

theorem times_fold {t : Text} (h : Whole nonce k t) : times nonce i [Text.fold t] = times nonce i [t] := by
  rw [times_singleton, times_singleton, h.indexes_fold hk hn]

theorem times_decode {t : Text} (h : Whole nonce k t) (hd : ¬Reference.StandsIn '$' t) :
    times nonce i [Reference.decode t] = times nonce i [t] := by
  rw [times_singleton, times_singleton, ((h.marked hk).decode hn hd).indexes]

/-! ## Parts of a text -/

theorem times_run {p : Char → Bool} (hp : ∀ c, isMarkerChar c = true → p c = true) {t : Text} (h : Whole nonce k t) :
    times nonce i [t] = times nonce i [t.takeWhile p] + times nonce i [t.dropWhile p] := by
  conv => lhs; rw [← List.takeWhile_append_dropWhile (p := p) (l := t)]
  exact times_whole_append hk (h.run hn hn hp).1 _

theorem times_upTo {q : Char} (hq : isMarkerChar q = false) {t : Text} (h : Whole nonce k t) :
    times nonce i [t] = times nonce i [t.takeWhile (· != q)] + times nonce i [(t.dropWhile (· != q)).drop 1] := by
  have hdollar : q ≠ '$' := by
    rintro rfl
    cases hq
  rw [times_run hk hn (p := (· != q)) (fun c hc => by simpa using ne_of_isMarkerChar hc hq) h]
  congr 1
  cases hrest : t.dropWhile (· != q) with
  | nil => rfl
  | cons c r =>
    have hstop := List.head_dropWhile_not (· != q) (l := t) (by simp [hrest])
    simp only [hrest, List.head_cons, bne_eq_false_iff_eq] at hstop
    subst hstop
    exact times_char hdollar r

theorem times_cutAt {p : Text → Bool} (hp : ∀ c t, isMarkerChar c = true → p (c :: t) = false)
    (heq : ∀ {t t'}, Renamed nonce nonce k t t' → p t = p t') {t : Text} (h : Whole nonce k t) :
    times nonce i [t] = times nonce i [(Text.cutAt p t).1] + times nonce i [(Text.cutAt p t).2] := by
  conv => lhs; rw [← Text.cutAt_append p t]
  exact times_whole_append hk (h.cutAt hn hn hp heq).1 _

/-! ## Attributes and tags -/

theorem times_readValue {t : Text} (h : Whole nonce k t) : times nonce i [t] =
    times nonce i [(Attribute.readValue t).1] + times nonce i [(Attribute.readValue t).2] := by
  have hs := h.skipBlanks
  rw [times_skipBlanks]
  by_cases hquoted : ∃ q r, Text.skipBlanks t = q :: r ∧ (q = '"' ∨ q = '\'')
  · obtain ⟨q, r, hb, hq⟩ := hquoted
    have hmarker : isMarkerChar q = false := by rcases hq with rfl | rfl <;> decide
    have hdollar : q ≠ '$' := by rcases hq with rfl | rfl <;> decide
    rw [hb] at hs
    rw [Attribute.readValue_quoted hq hb, hb, times_char hdollar]
    exact times_upTo hk hn hmarker (Whole.of_cons hdollar hs)
  · have hbare : ∀ c ∈ (Text.skipBlanks t).head?, c ≠ '"' ∧ c ≠ '\'' := by
      intro c hc
      obtain ⟨r, hb⟩ := List.head?_eq_some_iff.1 hc
      exact not_or.1 fun hq => hquoted ⟨c, r, hb, hq⟩
    rw [Attribute.readValue_bare hbare]
    exact times_cutAt hk hn endsBareValue_of_isMarkerChar Renamed.endsBareValue_eq hs

theorem times_readAttribute {t : Text} (h : Whole nonce k t) (hd : ¬Reference.StandsIn '$' t) : times nonce i [t] =
    times nonce i (Attribute.read t).1.texts + times nonce i [(Attribute.read t).2] := by
  have hchars : ∀ c, isMarkerChar c = true → Element.isAttributeChar c = true := fun c hc =>
    isAttributeChar_of_isMarkerChar hc
  have hrun := h.run hn hn hchars
  have hname := times_fold (i := i) hk hn hrun.1
  have hs := hrun.2.skipBlanks
  rw [times_run hk hn hchars h, times_skipBlanks (t.dropWhile Element.isAttributeChar), times_texts, ← hname]
  by_cases he : (Text.skipBlanks (t.dropWhile Element.isAttributeChar)).head? = some '='
  · obtain ⟨r, hb⟩ := List.head?_eq_some_iff.1 he
    have hsuffix : '=' :: r <:+ t := hb ▸ (List.dropWhile_suffix _).trans (List.dropWhile_suffix _)
    have hinfix := (Attribute.readValue_infix r).trans ((List.suffix_cons '=' r).trans hsuffix).isInfix
    rw [hb] at hs
    have hwhole : Whole nonce k r := Whole.of_cons (by decide) hs
    have hvalue := times_decode (i := i) hk hn (hwhole.readValue hn hn).1 fun hin => hd (hin.mono hinfix)
    rw [Attribute.read_of_equals hb, hb, times_char (by decide), times_readValue hk hn hwhole, ← hvalue]
    exact (Nat.add_assoc _ _ _).symm
  · rw [Attribute.read_of_ne he, Option.getD_none, times_empty, Nat.add_zero]

/-- **All that stands in a tag is in its attributes**, or behind it. -/
theorem times_readAll {t : Text} (h : Whole nonce k t) (hd : ¬Reference.StandsIn '$' t) : times nonce i [t] =
    times nonce i ((Tag.readAll t).attributes.flatMap Attribute.texts) + times nonce i [(Tag.readAll t).rest] := by
  induction t using Tag.readAll.induct with
  | case1 t hb =>
    rw [Tag.readAll_of_nil hb, times_skipBlanks, hb]
    exact (Nat.zero_add _).symm
  | case2 t r hb =>
    rw [Tag.readAll_of_gt hb, times_skipBlanks, hb, times_char (by decide)]
    exact (Nat.zero_add _).symm
  | case3 t r hb =>
    rw [Tag.readAll_of_slash_gt hb, times_skipBlanks, hb, times_char (by decide), times_char (by decide)]
    exact (Nat.zero_add _).symm
  | case4 t c r hgt hslash hb hc a =>
    rename_i ih
    have hs := h.skipBlanks
    have hsuffix : c :: r <:+ t := hb ▸ List.dropWhile_suffix _
    have hds : ¬Reference.StandsIn '$' (c :: r) := fun hin => hd (hin.mono hsuffix.isInfix)
    rw [hb] at hs
    have hrest := ih (hs.readAttribute hn hn hds).2 fun hin => hds (hin.mono (Attribute.read_suffix _).isInfix)
    rw [Tag.readAll_of_isAttributeChar hb hc, times_skipBlanks, hb, times_readAttribute hk hn hs hds, hrest,
      ← Nat.add_assoc, ← times_append]
    rfl
  | case5 t c r hgt hslash hb hc ih =>
    -- what is passed over is one character, and no marker begins with it
    have hdollar : c ≠ '$' := by
      rintro rfl
      exact hc (by decide)
    have hs := h.skipBlanks
    rw [hb] at hs
    have hsuffix : r <:+ t := (List.suffix_cons c r).trans (hb ▸ List.dropWhile_suffix _)
    have hslash : ¬(c = '/' ∧ r.head? = some '>') := by
      rintro ⟨rfl, hhead⟩
      obtain ⟨u, rfl⟩ := List.head?_eq_some_iff.1 hhead
      exact hslash u rfl rfl
    rw [Tag.readAll_of_not_isAttributeChar hb hgt hslash (by simpa using hc), times_skipBlanks, hb, times_char hdollar,
      ih (Whole.of_cons hdollar hs) fun hin => hd (hin.mono hsuffix.isInfix)]

theorem times_readTag {t : Text} (h : Whole nonce k t) (hd : ¬Reference.StandsIn '$' t) : times nonce i [t] =
    times nonce i ((Tag.read t).attributes.flatMap Attribute.texts) +
      times nonce i ((Attribute.repeated [] (Tag.readAll t).attributes).flatMap Attribute.texts) +
      times nonce i [(Tag.read t).rest] := by
  have hperm := Attribute.perm_repeated (Tag.readAll t).attributes []
  rw [List.filter_eq_self.2 (by simp)] at hperm
  rw [times_readAll hk hn h hd, ← times_perm (hperm.flatMap_right Attribute.texts), List.flatMap_append, times_append]
  rfl

/-! ## Spans -/

omit hk hn in
/-- The marker of a number stands in a text as often as in what a span of it gives, in what is left out of the span and
behind it. -/
def Accounts (nonce : Text) (i : Nat) (t : Text) (s : Span) (left : List Text) : Prop :=
  times nonce i [t] =
    times nonce i (s.tokens.flatMap (Token.given Template.ownTexts)) + times nonce i left + times nonce i [s.rest]

theorem accounts_ofRun {c : Char} {t : Text} (h : Whole nonce k (c :: t)) (hd : ¬Reference.StandsIn '$' (c :: t))
    (ho : Span.opensMarkup (c :: t) = false) : Accounts nonce i (c :: t) (Span.ofRun (c :: t)) [] := by
  have hprefix : (Text.cutAt Span.opensMarkup (c :: t)).1 <+: c :: t := ⟨_, Text.cutAt_append _ _⟩
  have hcut := h.cutAt hn hn opensMarkup_of_isMarkerChar Renamed.opensMarkup_eq
  have hdecode := times_decode (i := i) hk hn hcut.1 fun hin => hd (hin.mono hprefix.isInfix)
  rw [Accounts, Span.ofRun_cons ho, times_cutAt hk hn opensMarkup_of_isMarkerChar Renamed.opensMarkup_eq h, ← hdecode]
  rfl

theorem accounts_ofComment {t : Text} (h : Whole nonce k t) : Accounts nonce i t (Span.ofComment t) [] := by
  have hend : times nonce i [(Text.cutAt (['-', '-', '>'].isPrefixOf ·) t).2.drop 3] =
      times nonce i [(Text.cutAt (['-', '-', '>'].isPrefixOf ·) t).2] := by
    rcases Text.cutAt_snd (['-', '-', '>'].isPrefixOf ·) t with hnil | hp
    · rw [hnil, List.drop_nil]
    · obtain ⟨r, hr⟩ := List.isPrefixOf_iff_prefix.1 hp
      rw [← hr]
      exact (times_append_of_notMem (x := ['-', '-', '>']) (by decide) r).symm
  rw [Accounts, times_cutAt hk hn commentEnd_of_isMarkerChar (fun hs => hs.isPrefixOf_eq (by decide)) h, ← hend]
  rfl

theorem accounts_ofBogus {t : Text} (h : Whole nonce k t) : Accounts nonce i t (Span.ofBogus t) [] :=
  times_upTo hk hn (by decide) h

/-- A doctype gives nothing, and all of it is left out. -/
theorem accounts_ofDoctype {t : Text} (h : Whole nonce k t) :
    Accounts nonce i t (Span.ofDoctype t) [t.takeWhile (· != '>')] := by
  have hgiven : (Span.ofDoctype t).tokens.flatMap (Token.given Template.ownTexts) = [] := by
    rw [Span.ofDoctype_eq]
    dsimp only
    split <;> rfl
  have hrest : (Span.ofDoctype t).rest = (t.dropWhile (· != '>')).drop 1 := by rw [Span.ofDoctype_eq]
  rw [Accounts, hgiven, hrest, times_nil, Nat.zero_add]
  exact times_upTo hk hn (by decide) h

theorem accounts_ofDeclaration {t : Text} (h : Whole nonce k t) :
    Accounts nonce i t (Span.ofDeclaration t) (Span.omittedMarkup ('!' :: t)) := by
  rw [Span.omittedMarkup]
  cases hc : ['-', '-'].isPrefixOf t with
  | true =>
    obtain ⟨u, rfl⟩ := List.isPrefixOf_iff_prefix.1 hc
    rw [if_pos rfl, Accounts, times_append_of_notMem (by decide)]
    exact accounts_ofComment hk hn (Whole.of_append (by decide) h)
  | false =>
    rw [if_neg Bool.false_ne_true, Span.ofDeclaration_of_not_comment hc]
    split
    · exact accounts_ofDoctype hk hn h
    · exact accounts_ofBogus hk hn h

/-- An end tag gives no text, and all of it but its name is left out. -/
theorem accounts_ofEndTag {t : Text} (h : Whole nonce k t) :
    Accounts nonce i t (Span.ofEndTag t) (Span.omittedMarkup ('/' :: t)) := by
  have hgiven : (Span.ofEndTag t).tokens.flatMap (Token.given Template.ownTexts) = [] := by
    rw [Span.ofEndTag]
    dsimp only
    split <;> rfl
  rw [Accounts, hgiven, times_nil, Nat.zero_add, Span.omittedMarkup, times_dropWhile (by decide)]
  exact times_upTo hk hn (by decide) h

omit hk hn in
theorem times_afterEndTag? {name t : Text} (hname : '$' ∉ Text.fold name)
    (h : t = [] ∨ (Span.afterEndTag? name t).isSome = true) :
    times nonce i [(Span.afterEndTag? name t).getD []] = times nonce i [t] := by
  rcases h with rfl | h
  · rfl
  · obtain ⟨rest, hrest⟩ := Option.isSome_iff_exists.1 h
    obtain ⟨spelled, blanks, hs, hb, rfl⟩ := Span.afterEndTag?_eq_some_iff.1 hrest
    have hblanks : '$' ∉ blanks := fun hm => absurd (hb _ hm) (by decide)
    have htag : '$' ∉ '<' :: '/' :: spelled ++ blanks ++ ['>'] := by simp [notMem_of_sameFolded hname hs, hblanks]
    have hsplit : '<' :: '/' :: spelled ++ blanks ++ '>' :: rest =
        '<' :: '/' :: spelled ++ blanks ++ ['>'] ++ rest := by simp
    rw [hrest, Option.getD_some, hsplit, times_append_of_notMem htag]

theorem accounts_ofRawText {name t : Text} (hname : '$' ∉ Text.fold name) (h : Whole nonce k t) :
    Accounts nonce i t (Span.ofRawText name t) [] := by
  have hmarker : ∀ c s, isMarkerChar c = true → (Span.afterEndTag? name (c :: s)).isSome = false := fun c s hc => by
    rw [afterEndTag?_of_isMarkerChar name c s hc, Option.isSome_none]
  have hend : times nonce i [(Span.afterEndTag? name (Text.cutAt (fun s => (Span.afterEndTag? name s).isSome) t).2).getD
      []] = times nonce i [(Text.cutAt (fun s => (Span.afterEndTag? name s).isSome) t).2] :=
    times_afterEndTag? hname (Text.cutAt_snd _ t)
  have hcut := times_cutAt (i := i) hk hn (p := fun s => (Span.afterEndTag? name s).isSome) hmarker
    (fun hs => isSome_eq_of_rel (hs.afterEndTag? hname)) h
  rw [Accounts, hcut, ← hend, Span.ofRawText, times_nil, Nat.add_zero]
  dsimp only
  congr 1
  generalize (Text.cutAt (fun s => (Span.afterEndTag? name s).isSome) t).1 = u
  cases u with
  | nil => exact times_empty
  | cons c u => rfl

theorem accounts_ofStartTag {t : Text} (h : Whole nonce k t) (hd : ¬Reference.StandsIn '$' t) :
    Accounts nonce i t (Span.ofStartTag t) ((Attribute.repeated []
      (Tag.readAll (t.dropWhile Element.isNameChar)).attributes).flatMap Attribute.texts) := by
  have hrest := (h.run_eq (p := Element.isNameChar) (by decide)).2
  have hdrest : ¬Reference.StandsIn '$' (t.dropWhile Element.isNameChar) := fun hin =>
    hd (hin.mono (List.dropWhile_suffix _).isInfix)
  have htag := times_readTag (i := i) hk hn hrest hdrest
  have hwhole : Whole nonce k (Tag.read (t.dropWhile Element.isNameChar)).rest :=
    (hrest.readTag hn hn hk hdrest).rest
  have hgiven : ∀ name as b, Token.given Template.ownTexts (.startTag name as b) = as.flatMap Attribute.texts :=
    fun _ _ _ => rfl
  rw [Accounts, ← times_dropWhile (p := Element.isNameChar) (by decide) t, htag, Span.ofStartTag]
  dsimp only
  split
  · have hraw := accounts_ofRawText (i := i) hk hn (Element.dollar_notMem_fold_takeWhile t) hwhole
    rw [Accounts, times_nil] at hraw
    dsimp only
    rw [List.flatMap_cons, times_append, hraw, hgiven]
    omega
  · dsimp only
    rw [List.flatMap_singleton, hgiven]

theorem accounts_ofMarkup {t : Text} (h : Whole nonce k t) (hd : ¬Reference.StandsIn '$' t) :
    Accounts nonce i t (Span.ofMarkup t) (Span.omittedMarkup t) := by
  cases t with
  | nil => exact accounts_ofStartTag hk hn h hd
  | cons c t =>
    by_cases hbang : c = '!'
    · subst hbang
      rw [Accounts, times_char (by decide)]
      exact accounts_ofDeclaration hk hn (Whole.of_cons (by decide) h)
    by_cases hquestion : c = '?'
    · subst hquestion
      exact accounts_ofBogus hk hn h
    by_cases hslash : c = '/'
    · subst hslash
      rw [Accounts, times_char (by decide)]
      exact accounts_ofEndTag hk hn (Whole.of_cons (by decide) h)
    rw [Span.ofMarkup_of_ne _ hbang hquestion hslash, Span.omittedMarkup_of_ne _ hbang hquestion hslash]
    exact accounts_ofStartTag hk hn h hd

/-- **A span loses no marker** but those that are left out. -/
theorem accounts_read {c : Char} {t : Text} (h : Whole nonce k (c :: t)) (hd : ¬Reference.StandsIn '$' (c :: t)) :
    Accounts nonce i (c :: t) (Span.read (c :: t)) (Span.omitted (c :: t)) := by
  rw [Span.read, Span.omitted]
  split
  · rename_i ho
    obtain ⟨u, hu⟩ := Span.exists_lt_of_opensMarkup ho
    rw [hu] at h hd ⊢
    rw [Accounts, times_char (by decide)]
    exact accounts_ofMarkup hk hn (Whole.of_cons (by decide) h) fun hin => hd (hin.mono (List.suffix_cons '<' u).isInfix)
  · rename_i ho
    exact accounts_ofRun hk hn h hd (by simpa using ho)

/-! ## Texts and trees -/

/-- **Reading loses no marker** but those that are left out. -/
theorem times_tokens {t : Text} (h : Whole nonce k t) (hd : ¬Reference.StandsIn '$' t) : times nonce i [t] =
    times nonce i ((tokens t).flatMap (Token.given Template.ownTexts)) + times nonce i (omitted t) := by
  induction t using SafeMarkup.tokens.induct with
  | case1 =>
    rw [tokens_nil, omitted_nil]
    exact times_empty
  | case2 c t s =>
    rename_i ih
    obtain ⟨x, hx, -, -⟩ := Span.read_takes (List.cons_ne_nil c t)
    have hread := accounts_read (i := i) hk hn h hd
    have hrest : times nonce i [(Span.read (c :: t)).rest] =
        times nonce i ((tokens (Span.read (c :: t)).rest).flatMap (Token.given Template.ownTexts)) +
          times nonce i (omitted (Span.read (c :: t)).rest) :=
      ih (h.read hn hn hk hd).rest fun hin => hd (hin.mono (List.IsSuffix.isInfix ⟨x, hx.symm⟩))
    rw [Accounts, hrest] at hread
    rw [tokens_cons, omitted_cons, List.flatMap_append, times_append, times_append, hread]
    omega

omit hk hn in
theorem given_ownTexts (tok : Token Text) : tok.given (fun n => (Template.ownTexts n).flatMap (indexes nonce)) =
    (tok.given Template.ownTexts).flatMap (indexes nonce) := by
  cases tok <;> rfl

omit hn in
theorem additive_ownTexts : Additive (fun n => (Template.ownTexts n).flatMap (indexes nonce)) (Whole nonce k) where
  element _ _ _ := rfl
  nil := by rw [Template.ownTexts, List.flatMap_singleton, indexes_nil]
  append := by
    intro s t hs _
    simp only [Template.ownTexts, List.flatMap_singleton]
    exact hs.indexes_append hk t
  closed hs ht := Renamed.append hs ht

/-- **The marker of a number stands in a text as often as in its tree**, and in what is left out. -/
theorem times_parse {t : Text} (h : Whole nonce k t) (hd : ¬Reference.StandsIn '$' t) : times nonce i [t] =
    times nonce i ((Node.parse t).gather Template.ownTexts) + times nonce i (omitted t) := by
  have htexts : ∀ s, .text s ∈ tokens t → Whole nonce k s := fun s hs => by
    have hsame := List.forall₂_same.1 (h.tokens hn hn hk hd) _ hs
    cases hsame with
    | text hwhole => exact hwhole
  have hgather := Node.gather_ofTokens (additive_ownTexts hk) htexts
  have hroot : (Template.ownTexts (.element Element.root [] [])).flatMap (indexes nonce) = [] := rfl
  rw [hroot, List.nil_append, funext given_ownTexts, ← List.flatMap_assoc] at hgather
  have htree : times nonce i ((Node.parse t).gather Template.ownTexts) =
      times nonce i ((tokens t).flatMap (Token.given Template.ownTexts)) := by
    rw [times, times, ← hgather, Node.gather, List.flatMap_assoc]
    rfl
  rw [times_tokens hk hn h hd, htree]

end

end Marker
end SafeMarkup
