import SafeMarkup.Marker
import SafeMarkup.Proofs.Scanning
/-!
# Markers in escaped texts

A text is its pieces put together (`pieces_source`), and digits behind a lead make a marker whatever follows the fence
(`read?_marker`).

A nonce of hexadecimal digits makes markers that no escape changes: a text and the same text escaped have the same
markers in the same order (`indexes_escapeText`), and replacing the markers of the escaped text is escaping what stands
between them (`replace_escapeText`).
-/
namespace SafeMarkup
namespace Marker

/-- A nonce of digits and the letters from `a` to `f`. -/
def IsNonce (nonce : Text) : Prop := ∀ c ∈ nonce, c.isDigit = true ∨ ('a' ≤ c ∧ c ≤ 'f')

instance (nonce : Text) : Decidable (IsNonce nonce) := List.decidableBAll _ _

variable {nonce : Text}

theorem inText_of_isBodyChar {c : Char} (h : Reference.isBodyChar c = true) : Reference.inText c = [c] := by
  unfold Reference.inText
  split
  · exact absurd h (by decide)
  · exact absurd h (by decide)
  · exact absurd h (by decide)
  · exact absurd h (by decide)
  · rfl

theorem IsNonce.inText {c : Char} (h : IsNonce nonce) (hc : c ∈ nonce) : Reference.inText c = [c] := by
  refine inText_of_isBodyChar (Reference.isBodyChar_of_isHexDigit ?_)
  simp only [Reference.isHexDigit, Bool.or_eq_true, Bool.and_eq_true, decide_eq_true_eq]
  exact .inl (h c hc)

theorem inText_of_mem_lead {c : Char} (h : IsNonce nonce) (hc : c ∈ lead nonce) : Reference.inText c = [c] := by
  simp only [lead, fence, List.mem_append, List.mem_cons, List.not_mem_nil, or_false, or_self] at hc
  obtain (rfl | hc) | rfl := hc
  · rfl
  · exact h.inText hc
  · rfl

/-- A marker and what follows it are the text. -/
theorem read?_source {t digits rest : Text} (h : read? nonce t = some (digits, rest)) :
    t = (Piece.marker digits).source nonce ++ rest := by
  obtain ⟨s, hlead, hdigits, -, -, hfence⟩ := exists_of_read? h
  rw [Piece.source, List.append_assoc, List.append_assoc, List.append_eq_of_isPrefixOf?_eq_some hfence, ← hdigits,
    List.takeWhile_append_dropWhile, List.append_eq_of_isPrefixOf?_eq_some hlead]

theorem read?_digits {t digits rest : Text} (h : read? nonce t = some (digits, rest)) :
    ∀ c ∈ digits, c.isDigit = true := by
  obtain ⟨s, -, rfl, -⟩ := exists_of_read? h
  exact fun c hc => List.mem_takeWhile_imp hc

theorem read?_number {t digits rest : Text} (h : read? nonce t = some (digits, rest)) :
    digits ≠ [] ∧ Text.digitsValue 10 digits < indexLimit := by
  obtain ⟨s, -, -, hne, hl, -⟩ := exists_of_read? h
  exact ⟨hne, hl⟩

/-- **The pieces put together are the text.** -/
theorem pieces_source (nonce t : Text) : (pieces nonce t).flatMap (Piece.source nonce) = t := by
  fun_induction pieces nonce t with
  | case1 => rfl
  | case2 c t digits rest h ih => rw [List.flatMap_cons, ih, read?_source h]
  | case3 c t _ ih => rw [List.flatMap_cons, ih]; rfl

/-- **A marker is read**, whatever follows it. -/
theorem read?_marker {digits : Text} (hne : digits ≠ []) (hd : ∀ c ∈ digits, c.isDigit = true)
    (hl : Text.digitsValue 10 digits < indexLimit) (t : Text) :
    read? nonce ((Piece.marker digits).source nonce ++ t) = some (digits, t) := by
  have hdollar : ('$' : Char).isDigit = false := by decide
  have hsplit : (Piece.marker digits).source nonce ++ t = lead nonce ++ (digits ++ '$' :: ('$' :: '$' :: t)) := by
    simp [Piece.source, fence]
  have hnumber : ¬(digits.isEmpty || decide (indexLimit ≤ Text.digitsValue 10 digits)) = true := by
    simp only [Bool.or_eq_true, List.isEmpty_iff, decide_eq_true_eq, not_or, Nat.not_le]
    exact ⟨hne, hl⟩
  have htake : (digits ++ '$' :: ('$' :: '$' :: t)).takeWhile Char.isDigit = digits :=
    Text.takeWhile_append_cons hd hdollar _
  have hdrop : (digits ++ '$' :: ('$' :: '$' :: t)).dropWhile Char.isDigit = fence ++ t :=
    Text.dropWhile_append_cons hd hdollar _
  have hlead {x y : Text} : x.isPrefixOf? (x ++ y) = some y := List.isPrefixOf?_eq_some_iff_append_eq.2 rfl
  rw [read?, hsplit, hlead]
  simp only [htake, hdrop, if_neg hnumber, hlead, Option.map_some]

theorem digits_of_mem_pieces {t digits : Text} (h : .marker digits ∈ pieces nonce t) :
    ∀ c ∈ digits, c.isDigit = true := by
  fun_induction pieces nonce t with
  | case1 => cases h
  | case2 c t ds rest hr ih =>
    rcases List.mem_cons.1 h with he | h
    · obtain rfl := Piece.marker.inj he
      exact read?_digits hr
    · exact ih h
  | case3 c t hr ih =>
    rcases List.mem_cons.1 h with he | h
    · cases he
    · exact ih h

theorem inText_of_mem_source {c : Char} {digits : Text} (hn : IsNonce nonce) (hd : ∀ d ∈ digits, d.isDigit = true)
    (hc : c ∈ (Piece.marker digits).source nonce) : Reference.inText c = [c] := by
  rcases List.mem_append.1 hc with hc | hc
  · rcases List.mem_append.1 hc with hc | hc
    · exact inText_of_mem_lead hn hc
    · exact inText_of_isBodyChar (Reference.isBodyChar_of_isDigit (hd c hc))
  · exact inText_of_mem_lead hn (by simp [lead, hc])

/-- A character that is not written as it is is written as a reference, in which no marker begins. -/
theorem inText_cases (c : Char) : Reference.inText c = [c] ∨
    Reference.inText c ≠ [c] ∧ ∃ body, Reference.inText c = '&' :: body ∧ '$' ∉ body := by
  unfold Reference.inText
  split
  · exact .inr ⟨by decide, _, rfl, by decide⟩
  · exact .inr ⟨by decide, _, rfl, by decide⟩
  · exact .inr ⟨by decide, _, rfl, by decide⟩
  · exact .inr ⟨by decide, _, rfl, by decide⟩
  · exact .inl rfl

theorem escapeText_cons (c : Char) (t : Text) : escapeText (c :: t) = Reference.inText c ++ escapeText t :=
  List.flatMap_cons ..

theorem isPrefixOf?_escapeText : ∀ {p : Text}, (∀ c ∈ p, Reference.inText c = [c]) →
    ∀ t : Text, p.isPrefixOf? (escapeText t) = (p.isPrefixOf? t).map escapeText
  | [], _, t => rfl
  | a :: p, _, [] => rfl
  | a :: p, h, c :: t => by
    obtain ⟨ha, hp⟩ := List.forall_mem_cons.1 h
    rw [escapeText_cons, List.isPrefixOf?]
    rcases inText_cases c with hc | ⟨hne, body, hc, -⟩
    · rw [hc, List.singleton_append, List.isPrefixOf?, isPrefixOf?_escapeText hp]
      split <;> rfl
    · have hac : a ≠ c := by
        rintro rfl
        exact hne ha
      have hamp : a ≠ '&' := by
        rintro rfl
        cases ha
      rw [hc, List.cons_append, List.isPrefixOf?, if_neg (by simpa using hamp), if_neg (by simpa using hac)]
      rfl

theorem digits_escapeText (t : Text) :
    (escapeText t).takeWhile Char.isDigit = t.takeWhile Char.isDigit ∧
      (escapeText t).dropWhile Char.isDigit = escapeText (t.dropWhile Char.isDigit) := by
  induction t with
  | nil => exact ⟨rfl, rfl⟩
  | cons c t ih =>
    rw [escapeText_cons, List.takeWhile_cons, List.dropWhile_cons]
    rcases inText_cases c with hc | ⟨hne, body, hc, -⟩
    · rw [hc, List.singleton_append, List.takeWhile_cons, List.dropWhile_cons]
      by_cases hd : c.isDigit = true
      · rw [if_pos hd, if_pos hd, if_pos hd, if_pos hd, ih.1, ih.2]
        exact ⟨rfl, rfl⟩
      · rw [if_neg hd, if_neg hd, if_neg hd, if_neg hd, escapeText_cons, hc]
        exact ⟨rfl, rfl⟩
    · have hd : ¬c.isDigit = true := fun hd => hne (inText_of_isBodyChar (Reference.isBodyChar_of_isDigit hd))
      rw [if_neg hd, if_neg hd, escapeText_cons, hc]
      exact ⟨rfl, rfl⟩

/-- **A marker is read at the start of an escaped text exactly if it is read at the start of the text.** -/
theorem read?_escapeText (hn : IsNonce nonce) (t : Text) :
    read? nonce (escapeText t) = (read? nonce t).map fun r => (r.1, escapeText r.2) := by
  have hfence : ∀ c ∈ fence, Reference.inText c = [c] := fun c hc => inText_of_mem_lead hn (List.mem_append_left _
    (List.mem_append_left _ hc))
  unfold read?
  rw [isPrefixOf?_escapeText fun c hc => inText_of_mem_lead hn hc]
  cases (lead nonce).isPrefixOf? t with
  | none => rfl
  | some s =>
    simp only [Option.map_some, (digits_escapeText s).1, (digits_escapeText s).2, isPrefixOf?_escapeText hfence]
    split
    · rfl
    · simp only [Option.map_map]
      rfl

theorem read?_cons_of_ne {c : Char} (h : c ≠ '$') (t : Text) : read? nonce (c :: t) = none := by
  have hp : (lead nonce).isPrefixOf? (c :: t) = none := by
    rw [lead, fence, List.cons_append, List.cons_append, List.isPrefixOf?, if_neg (by simpa using h.symm)]
  rw [read?, hp]

theorem pieces_append_of_notMem {x : Text} (h : '$' ∉ x) (t : Text) :
    pieces nonce (x ++ t) = x.map .char ++ pieces nonce t := by
  induction x with
  | nil => rfl
  | cons c x ih =>
    rw [List.mem_cons, not_or] at h
    obtain ⟨hc, hx⟩ := h
    rw [List.cons_append, pieces_of_read?_none (read?_cons_of_ne (Ne.symm hc) _), ih hx]
    rfl

/-- A piece of a text, as it stands in the text once that is escaped. -/
def Piece.escaped : Piece → List Piece
  | .char c => (Reference.inText c).map .char
  | .marker digits => [.marker digits]

theorem pieces_escapeText (hn : IsNonce nonce) (t : Text) :
    pieces nonce (escapeText t) = (pieces nonce t).flatMap Piece.escaped := by
  fun_induction pieces nonce t with
  | case1 => exact pieces_nil nonce
  | case2 c t digits rest h ih =>
    have hr := read?_escapeText hn (c :: t)
    rw [h, Option.map_some] at hr
    obtain ⟨d, u, hdu⟩ : ∃ d u, escapeText (c :: t) = d :: u := by
      rcases inText_cases c with hc | ⟨-, body, hc, -⟩
      · exact ⟨_, _, by rw [escapeText_cons, hc]; rfl⟩
      · exact ⟨_, _, by rw [escapeText_cons, hc]; rfl⟩
    rw [hdu] at hr ⊢
    rw [pieces_of_read? hr, ih]
    rfl
  | case3 c t h ih =>
    rw [List.flatMap_cons, ← ih, escapeText_cons]
    rcases inText_cases c with hc | ⟨-, body, hc, hb⟩
    · have hr := read?_escapeText hn (c :: t)
      rw [h, escapeText_cons, hc, List.singleton_append] at hr
      rw [hc, List.singleton_append, pieces_of_read?_none hr, Piece.escaped, hc]
      rfl
    · rw [Piece.escaped, pieces_append_of_notMem]
      rw [hc, List.mem_cons, not_or]
      exact ⟨by decide, hb⟩

theorem index?_escaped (p : Piece) : p.escaped.filterMap Piece.index? = p.index?.toList := by
  cases p with
  | char c => simp [Piece.escaped, Piece.index?, List.filterMap_map]
  | marker digits => rfl

/-- **Escaping a text changes none of its markers.** -/
theorem indexes_escapeText (hn : IsNonce nonce) (t : Text) : indexes nonce (escapeText t) = indexes nonce t := by
  rw [indexes, indexes, pieces_escapeText hn, List.filterMap_flatMap, List.filterMap_eq_flatMap_toList]
  simp only [index?_escaped]

/-- What a piece of a text gives when the text is escaped and its markers are replaced. -/
def Piece.shown (nonce : Text) (f : Nat → Option Text) : Piece → Text
  | .char c => Reference.inText c
  | .marker digits => (Piece.marker digits).replacement nonce (f (Text.digitsValue 10 digits))

theorem flatMap_char (f : Nat → Option Text) (x : Text) :
    (x.map Piece.char).flatMap (fun p => p.replacement nonce (p.index?.bind f)) = x := by
  rw [List.flatMap_map]
  exact List.flatMap_singleton' x

/-- **The markers of an escaped text are replaced piece by piece of the text.** -/
theorem replace_escapeText (hn : IsNonce nonce) (f : Nat → Option Text) (t : Text) :
    replace nonce f (escapeText t) = (pieces nonce t).flatMap (Piece.shown nonce f) := by
  rw [replace, pieces_escapeText hn, List.flatMap_assoc]
  refine congrArg (List.flatMap · _) (funext fun p => ?_)
  cases p with
  | char c => exact flatMap_char f _
  | marker digits => exact List.append_nil _

end Marker
end SafeMarkup
