import SafeMarkup.Proofs.JoinedMarkers
import SafeMarkup.Proofs.RelatedTrees
/-!
# Texts under another nonce

Two texts are renamings of each other if they differ in the nonce of their markers alone, and no other `$` stands in
them (`Marker.Renamed`).  Runs of characters, cuts, decoding and escaping treat a marker as one opaque piece and keep
texts renamings of each other, and the markers in both have the same numbers.
-/
namespace SafeMarkup
namespace Marker

/-- Texts that are the same but for the nonce of their markers, which stand for slots below `k`. -/
inductive Renamed (nonce nonce' : Text) (k : Nat) : Text → Text → Prop where
  | nil : Renamed nonce nonce' k [] []
  | char {c : Char} {t t' : Text} (hc : c ≠ '$') (h : Renamed nonce nonce' k t t') :
    Renamed nonce nonce' k (c :: t) (c :: t')
  | marker {i : Nat} {t t' : Text} (hi : i < k) (h : Renamed nonce nonce' k t t') :
    Renamed nonce nonce' k (write nonce i ++ t) (write nonce' i ++ t')

/-- The characters of markers. -/
def isMarkerChar (c : Char) : Bool := c == '$' || c == ':' || c.isDigit || ('a' ≤ c && c ≤ 'f')

variable {nonce nonce' : Text} {k : Nat}

theorem isMarkerChar_of_mem_write (hn : IsNonce nonce) {i : Nat} {c : Char} (hc : c ∈ write nonce i) :
    isMarkerChar c = true := by
  simp only [write, lead, fence, List.mem_append, List.mem_cons, List.not_mem_nil, or_false, or_self] at hc
  simp only [isMarkerChar, Bool.or_eq_true, Bool.and_eq_true, beq_iff_eq, decide_eq_true_eq]
  rcases hc with (((hc | hc) | hc) | hc) | hc
  · exact .inl (.inl (.inl hc))
  · rcases hn c hc with hd | ha
    · exact .inl (.inr hd)
    · exact .inr ha
  · exact .inl (.inl (.inr hc))
  · exact .inl (.inr (isDigit_of_mem_decimal hc))
  · exact .inl (.inl (.inl hc))

theorem ne_of_isMarkerChar {c d : Char} (hc : isMarkerChar c = true) (hd : isMarkerChar d = false) : c ≠ d := by
  rintro rfl
  rw [hc] at hd
  cases hd

theorem not_isUpper_of_isMarkerChar {c : Char} (hc : isMarkerChar c = true) : c.isUpper = false := by
  simp only [isMarkerChar, Bool.or_eq_true, Bool.and_eq_true, beq_iff_eq, decide_eq_true_eq] at hc
  rcases hc with ((rfl | rfl) | hd) | ⟨ha, -⟩
  · decide
  · decide
  · rw [Bool.eq_false_iff]
    intro hu
    simp only [Char.isDigit, Char.isUpper, Bool.and_eq_true, decide_eq_true_eq] at hd hu
    exact absurd (UInt32.le_trans hu.1 hd.2) (by decide)
  · rw [Bool.eq_false_iff]
    intro hu
    simp only [Char.isUpper, decide_eq_true_eq] at hu
    exact absurd (UInt32.le_trans ha hu.2) (by decide)

theorem notMem_of_sameFolded {p s : Text} (hp : '$' ∉ Text.fold p) (hs : Text.sameFolded s p = true) : '$' ∉ s := by
  intro hm
  rw [← Text.sameFolded_iff.1 hs] at hp
  exact hp (List.mem_map.2 ⟨'$', hm, by decide⟩)

theorem write_eq_cons (nonce : Text) (i : Nat) : ∃ t, write nonce i = '$' :: t := ⟨_, rfl⟩

theorem fold_write (hn : IsNonce nonce) (i : Nat) : Text.fold (write nonce i) = write nonce i :=
  Text.fold_eq_self fun _ hc => not_isUpper_of_isMarkerChar (isMarkerChar_of_mem_write hn hc)

theorem amp_notMem_write (hn : IsNonce nonce) (i : Nat) : '&' ∉ write nonce i := by
  intro hm
  exact ne_of_isMarkerChar (isMarkerChar_of_mem_write hn hm) (by decide) rfl

theorem escapeText_write (hn : IsNonce nonce) (i : Nat) : escapeText (write nonce i) = write nonce i := by
  rw [escapeText, List.flatMap_def, List.map_congr_left fun c hc => inText_of_mem_write hn hc, ← List.flatMap_def]
  exact List.flatMap_singleton' _

/-! ## The first piece of a text -/

theorem indexes_char {c : Char} (hc : c ≠ '$') (t : Text) : indexes nonce (c :: t) = indexes nonce t := by
  rw [indexes, pieces_of_read?_none (read?_cons_of_ne hc t)]
  rfl

theorem indexes_marker {i : Nat} (hi : i < indexLimit) (t : Text) :
    indexes nonce (write nonce i ++ t) = i :: indexes nonce t := by
  have hindex : (Piece.marker (Text.decimal i)).index? = some i := congrArg some (digitsValue_decimal i)
  rw [indexes, pieces_eq_of_read? (read?_write hi t), List.filterMap_cons_some hindex]
  rfl

theorem replace_nil (f : Nat → Option Text) : replace nonce f [] = [] := by rw [replace, pieces_nil, List.flatMap_nil]

theorem replace_char {c : Char} (hc : c ≠ '$') (f : Nat → Option Text) (t : Text) :
    replace nonce f (c :: t) = c :: replace nonce f t := by
  rw [replace, pieces_of_read?_none (read?_cons_of_ne hc t)]
  rfl

theorem replace_marker {i : Nat} (hi : i < indexLimit) (f : Nat → Option Text) (t : Text) :
    replace nonce f (write nonce i ++ t) = (f i).getD (write nonce i) ++ replace nonce f t := by
  have hindex : (Piece.marker (Text.decimal i)).index? = some i := congrArg some (digitsValue_decimal i)
  rw [replace, pieces_eq_of_read? (read?_write hi t), List.flatMap_cons, hindex]
  rfl

namespace Renamed

/-! ## Building and taking apart -/

theorem symm {t t' : Text} (h : Renamed nonce nonce' k t t') : Renamed nonce' nonce k t' t := by
  induction h with
  | nil => exact .nil
  | char hc _ ih => exact .char hc ih
  | marker hi _ ih => exact .marker hi ih

theorem append {s s' t t' : Text} (hs : Renamed nonce nonce' k s s') (ht : Renamed nonce nonce' k t t') :
    Renamed nonce nonce' k (s ++ t) (s' ++ t') := by
  induction hs with
  | nil => exact ht
  | char hc _ ih => exact .char hc ih
  | marker hi _ ih =>
    rw [List.append_assoc, List.append_assoc]
    exact .marker hi ih

theorem refl_of_notMem {t : Text} (h : '$' ∉ t) : Renamed nonce nonce' k t t := by
  induction t with
  | nil => exact .nil
  | cons c t ih =>
    rw [List.mem_cons, not_or] at h
    exact .char (Ne.symm h.1) (ih h.2)

/-- How renamed texts begin: not at all, with one character, or both with a marker. -/
theorem head_cases {t t' : Text} (h : Renamed nonce nonce' k t t') :
    (t = [] ∧ t' = []) ∨ (∃ c s s', t = c :: s ∧ t' = c :: s' ∧ c ≠ '$' ∧ Renamed nonce nonce' k s s') ∨
      ∃ s s', t = '$' :: s ∧ t' = '$' :: s' := by
  cases h with
  | nil => exact .inl ⟨rfl, rfl⟩
  | char hc h => exact .inr (.inl ⟨_, _, _, rfl, rfl, hc, h⟩)
  | marker hi h => exact .inr (.inr ⟨_, _, rfl, rfl⟩)

theorem of_cons {c : Char} (hc : c ≠ '$') {t t' : Text} (h : Renamed nonce nonce' k (c :: t) t') :
    ∃ s', t' = c :: s' ∧ Renamed nonce nonce' k t s' := by
  obtain ⟨ht, -⟩ | ⟨d, s, s', ht, rfl, -, hs⟩ | ⟨s, s', ht, -⟩ := h.head_cases
  · cases ht
  · obtain ⟨rfl, rfl⟩ := List.cons.inj ht
    exact ⟨s', rfl, hs⟩
  · exact absurd (List.cons.inj ht).1 hc

theorem of_append {x y t' : Text} (hx : '$' ∉ x) (h : Renamed nonce nonce' k (x ++ y) t') :
    ∃ y', t' = x ++ y' ∧ Renamed nonce nonce' k y y' := by
  induction x generalizing t' with
  | nil => exact ⟨t', rfl, h⟩
  | cons c x ih =>
    rw [List.mem_cons, not_or] at hx
    obtain ⟨s', rfl, hs⟩ := of_cons (Ne.symm hx.1) h
    obtain ⟨y', rfl, hy⟩ := ih hx.2 hs
    exact ⟨y', rfl, hy⟩

theorem head?_eq {t t' : Text} (h : Renamed nonce nonce' k t t') : t.head? = t'.head? := by
  obtain ⟨rfl, rfl⟩ | ⟨c, s, s', rfl, rfl, -, -⟩ | ⟨s, s', rfl, rfl⟩ := h.head_cases
  · rfl
  · rfl
  · rfl

theorem isEmpty_eq {t t' : Text} (h : Renamed nonce nonce' k t t') : t.isEmpty = t'.isEmpty := by
  rw [Bool.eq_iff_iff, List.isEmpty_iff, List.isEmpty_iff, ← List.head?_eq_none_iff, h.head?_eq,
    List.head?_eq_none_iff]

theorem textRelation : TextRelation (Renamed nonce nonce' k) := ⟨append, isEmpty_eq⟩

/-! ## Runs of characters -/

theorem drop_one {t t' : Text} (h : Renamed nonce nonce' k t t') (ht : ∀ c ∈ t.head?, c ≠ '$') :
    Renamed nonce nonce' k (t.drop 1) (t'.drop 1) := by
  obtain ⟨rfl, rfl⟩ | ⟨c, s, s', rfl, rfl, -, hs⟩ | ⟨s, s', rfl, rfl⟩ := h.head_cases
  · exact .nil
  · exact hs
  · exact absurd rfl (ht '$' rfl)

/-- A run that no character of a marker belongs to has no marker in it. -/
theorem run_eq {p : Char → Bool} (hp : p '$' = false) {t t' : Text} (h : Renamed nonce nonce' k t t') :
    t.takeWhile p = t'.takeWhile p ∧ Renamed nonce nonce' k (t.dropWhile p) (t'.dropWhile p) := by
  induction h with
  | nil => exact ⟨rfl, .nil⟩
  | @char c t t' hc h ih =>
    rw [List.takeWhile_cons, List.takeWhile_cons, List.dropWhile_cons, List.dropWhile_cons]
    by_cases hpc : p c = true
    · rw [if_pos hpc, if_pos hpc, if_pos hpc, if_pos hpc, ih.1]
      exact ⟨rfl, ih.2⟩
    · rw [if_neg hpc, if_neg hpc, if_neg hpc, if_neg hpc]
      exact ⟨rfl, .char hc h⟩
  | @marker i t t' hi h ih =>
    have hstop : ∀ (n : Text) (s : Text), (write n i ++ s).takeWhile p = [] ∧
        (write n i ++ s).dropWhile p = write n i ++ s := by
      intro n s
      obtain ⟨w, hw⟩ := write_eq_cons n i
      rw [hw, List.cons_append, List.takeWhile_cons, List.dropWhile_cons, if_neg (by simp [hp]), if_neg (by simp [hp])]
      exact ⟨rfl, rfl⟩
    rw [(hstop nonce t).1, (hstop nonce' t').1, (hstop nonce t).2, (hstop nonce' t').2]
    exact ⟨rfl, .marker hi h⟩

section

variable (hn : IsNonce nonce) (hn' : IsNonce nonce')

include hn hn'

/-- A run that the characters of markers belong to takes markers whole. -/
theorem run {p : Char → Bool} (hp : ∀ c, isMarkerChar c = true → p c = true) {t t' : Text}
    (h : Renamed nonce nonce' k t t') : Renamed nonce nonce' k (t.takeWhile p) (t'.takeWhile p) ∧
      Renamed nonce nonce' k (t.dropWhile p) (t'.dropWhile p) := by
  induction h with
  | nil => exact ⟨.nil, .nil⟩
  | @char c t t' hc h ih =>
    rw [List.takeWhile_cons, List.takeWhile_cons, List.dropWhile_cons, List.dropWhile_cons]
    by_cases hpc : p c = true
    · rw [if_pos hpc, if_pos hpc, if_pos hpc, if_pos hpc]
      exact ⟨.char hc ih.1, ih.2⟩
    · rw [if_neg hpc, if_neg hpc, if_neg hpc, if_neg hpc]
      exact ⟨.nil, .char hc h⟩
  | @marker i t t' hi h ih =>
    have hw : ∀ c ∈ write nonce i, p c = true := fun c hc => hp c (isMarkerChar_of_mem_write hn hc)
    have hw' : ∀ c ∈ write nonce' i, p c = true := fun c hc => hp c (isMarkerChar_of_mem_write hn' hc)
    rw [List.takeWhile_append_of_pos hw, List.takeWhile_append_of_pos hw', List.dropWhile_append_of_pos hw,
      List.dropWhile_append_of_pos hw']
    exact ⟨.marker hi ih.1, ih.2⟩

/-- **A text is cut where the same markup follows**, and never in a marker. -/
theorem cutAt {p : Text → Bool} (hp : ∀ c t, isMarkerChar c = true → p (c :: t) = false)
    (heq : ∀ {t t'}, Renamed nonce nonce' k t t' → p t = p t') {t t' : Text} (h : Renamed nonce nonce' k t t') :
    Renamed nonce nonce' k (Text.cutAt p t).1 (Text.cutAt p t').1 ∧
      Renamed nonce nonce' k (Text.cutAt p t).2 (Text.cutAt p t').2 := by
  induction h with
  | nil => exact ⟨.nil, .nil⟩
  | @char c t t' hc h ih =>
    have hpt := heq (.char hc h)
    by_cases hpc : p (c :: t) = true
    · rw [Text.cutAt_of_pos hpc, Text.cutAt_of_pos (hpt ▸ hpc)]
      exact ⟨.nil, .char hc h⟩
    · have hpc : p (c :: t) = false := by simpa using hpc
      rw [Text.cutAt_of_neg hpc, Text.cutAt_of_neg (hpt ▸ hpc)]
      exact ⟨.char hc ih.1, ih.2⟩
  | @marker i t t' hi h ih =>
    have hw : ∀ (n : Text) (s : Text), IsNonce n → Text.cutAt p (write n i ++ s) =
        (write n i ++ (Text.cutAt p s).1, (Text.cutAt p s).2) := by
      intro n s hn
      apply Text.cutAt_append_of_neg
      intro u c v hv
      exact hp c _ (isMarkerChar_of_mem_write hn (i := i) (by rw [hv]; simp))
    rw [hw nonce t hn, hw nonce' t' hn']
    exact ⟨.marker hi ih.1, ih.2⟩

end

/-! ## Beginnings -/

theorem isPrefixOf_eq {p : Text} (hp : '$' ∉ p) {t t' : Text} (h : Renamed nonce nonce' k t t') :
    p.isPrefixOf t = p.isPrefixOf t' := by
  rw [Bool.eq_iff_iff, List.isPrefixOf_iff_prefix, List.isPrefixOf_iff_prefix]
  constructor
  · rintro ⟨z, rfl⟩
    obtain ⟨z', rfl, -⟩ := h.of_append hp
    exact List.prefix_append p z'
  · rintro ⟨z, rfl⟩
    obtain ⟨z', rfl, -⟩ := h.symm.of_append hp
    exact List.prefix_append p z'

/-- What is found in a text under any nonce is found in its renaming. -/
theorem optionRel {f : Text → Option Text}
    (hf : ∀ {n n' s s' rest : Text}, Renamed n n' k s s' → f s = some rest →
      ∃ rest', f s' = some rest' ∧ Renamed n n' k rest rest') {t t' : Text} (h : Renamed nonce nonce' k t t') :
    Option.Rel (Renamed nonce nonce' k) (f t) (f t') := by
  cases hr : f t with
  | some rest =>
    obtain ⟨rest', hr', hrest⟩ := hf h hr
    rw [hr']
    exact .some hrest
  | none =>
    have hr' : f t' = none := by
      rw [Option.eq_none_iff_forall_not_mem]
      intro rest' hr'
      obtain ⟨rest, hrest, -⟩ := hf h.symm hr'
      rw [hr] at hrest
      cases hrest
    rw [hr']
    exact .none

theorem of_afterFolded? {p t t' rest : Text} (hp : '$' ∉ Text.fold p) (h : Renamed nonce nonce' k t t')
    (hr : Text.afterFolded? p t = some rest) :
    ∃ rest', Text.afterFolded? p t' = some rest' ∧ Renamed nonce nonce' k rest rest' := by
  obtain ⟨s, hs, rfl⟩ := Text.afterFolded?_eq_some_iff.1 hr
  obtain ⟨rest', rfl, hrest⟩ := h.of_append (notMem_of_sameFolded hp hs)
  exact ⟨rest', Text.afterFolded?_eq_some_iff.2 ⟨s, hs, rfl⟩, hrest⟩

theorem afterFolded? {p t t' : Text} (hp : '$' ∉ Text.fold p) (h : Renamed nonce nonce' k t t') :
    Option.Rel (Renamed nonce nonce' k) (Text.afterFolded? p t) (Text.afterFolded? p t') :=
  h.optionRel fun hs hr => hs.of_afterFolded? hp hr

/-! ## Decoding, folding and escaping -/

/-- A reference is read alike in both texts, and without a marker. -/
theorem of_read? {t t' rest : Text} {d : Char} (h : Renamed nonce nonce' k t t')
    (hr : Reference.read? t = some (d, rest)) :
    ∃ rest', Reference.read? t' = some (d, rest') ∧ Renamed nonce nonce' k rest rest' ∧
      Reference.StandsIn d ('&' :: t) := by
  obtain ⟨body, rfl, hl, hb⟩ := Reference.read?_eq_some_iff.1 hr
  have hbody : '$' ∉ body ++ [';'] := by simp [body_notMem hb]
  rw [← List.singleton_append, ← List.append_assoc] at h
  obtain ⟨rest', rfl, hrest⟩ := h.of_append hbody
  exact ⟨rest', Reference.read?_eq_some_iff.2 ⟨body, by simp, hl, hb⟩, hrest, body, hl, hb, [], rest, by simp⟩

theorem read?_eq_none {t t' : Text} (h : Renamed nonce nonce' k t t') (hr : Reference.read? t = none) :
    Reference.read? t' = none := by
  rw [Option.eq_none_iff_forall_not_mem]
  rintro ⟨d, rest'⟩ hr'
  obtain ⟨rest, hrest, -⟩ := h.symm.of_read? hr'
  rw [hr] at hrest
  cases hrest

section

variable (hn : IsNonce nonce) (hn' : IsNonce nonce')

include hn hn'

theorem decode {t t' : Text} (h : Renamed nonce nonce' k t t') (hd : ¬Reference.StandsIn '$' t) :
    Renamed nonce nonce' k (Reference.decode t) (Reference.decode t') := by
  -- on the length: what follows a reference is no part of the relation's own recursion
  obtain ⟨l, hl⟩ : ∃ l, t.length = l := ⟨_, rfl⟩
  induction l using Nat.strong_induction_on generalizing t t' with
  | _ l ih =>
  cases h with
  | nil =>
    rw [Reference.decode_nil]
    exact .nil
  | @marker i t t' hi h =>
    have hlt : t.length < l := by
      rw [← hl, List.length_append]
      exact Nat.lt_add_of_pos_left (length_write_pos i)
    have hdt : ¬Reference.StandsIn '$' t := fun hs => hd (hs.mono (List.suffix_append _ t).isInfix)
    rw [Reference.decode_append_of_notMem (amp_notMem_write hn i),
      Reference.decode_append_of_notMem (amp_notMem_write hn' i)]
    exact .marker hi (ih _ hlt h hdt rfl)
  | @char c t t' hc h =>
    have hlt : t.length < l := by
      rw [← hl]
      exact Nat.lt_succ_self _
    have hdt : ¬Reference.StandsIn '$' t := fun hs => hd (hs.mono (List.suffix_cons c t).isInfix)
    by_cases hamp : c = '&'
    · subst hamp
      cases hr : Reference.read? t with
      | none =>
        rw [Reference.decode_of_read?_none hr, Reference.decode_of_read?_none (h.read?_eq_none hr)]
        exact .char hc (ih _ hlt h hdt rfl)
      | some r =>
        obtain ⟨d, rest⟩ := r
        obtain ⟨rest', hr', hrest, hstands⟩ := h.of_read? hr
        have hdollar : d ≠ '$' := fun he => hd (he ▸ hstands)
        have hdrest : ¬Reference.StandsIn '$' rest := fun hs => hdt (hs.mono (Reference.infix_of_read? hr))
        rw [Reference.decode_of_read? hr, Reference.decode_of_read? hr']
        exact .char hdollar (ih _ (Nat.lt_trans (Reference.read?_length hr) hlt) hrest hdrest rfl)
    · rw [Reference.decode_cons_of_ne hamp, Reference.decode_cons_of_ne hamp]
      exact .char hc (ih _ hlt h hdt rfl)

theorem fold {t t' : Text} (h : Renamed nonce nonce' k t t') :
    Renamed nonce nonce' k (Text.fold t) (Text.fold t') := by
  induction h with
  | nil => exact .nil
  | char hc _ ih => exact .char (Text.toLower_ne rfl hc) ih
  | @marker i t t' hi _ ih =>
    rw [Text.fold, List.map_append, Text.fold, List.map_append]
    change Renamed nonce nonce' k (Text.fold _ ++ Text.fold t) (Text.fold _ ++ Text.fold t')
    rw [fold_write hn, fold_write hn']
    exact .marker hi ih

theorem escape {t t' : Text} (h : Renamed nonce nonce' k t t') :
    Renamed nonce nonce' k (escapeText t) (escapeText t') := by
  induction h with
  | nil => exact .nil
  | @char c t t' hc _ ih =>
    have hdollar : '$' ∉ Reference.inText c := by
      rcases inText_cases c with he | ⟨-, body, he, hb⟩
      · rw [he]
        simpa using hc.symm
      · rw [he]
        simpa using hb
    rw [escapeText_cons, escapeText_cons]
    exact append (refl_of_notMem hdollar) ih
  | @marker i t t' hi _ ih =>
    rw [escapeText, List.flatMap_append, escapeText, List.flatMap_append]
    change Renamed nonce nonce' k (escapeText _ ++ escapeText t) (escapeText _ ++ escapeText t')
    rw [escapeText_write hn, escapeText_write hn']
    exact .marker hi ih

end

/-! ## The markers of both texts -/

section

variable (hk : k ≤ indexLimit)

include hk

theorem indexes_eq {t t' : Text} (h : Renamed nonce nonce' k t t') : indexes nonce t = indexes nonce' t' := by
  induction h with
  | nil => rw [indexes_nil, indexes_nil]
  | char hc _ ih => rw [indexes_char hc, indexes_char hc, ih]
  | marker hi _ ih =>
    have hlimit := Nat.lt_of_lt_of_le hi hk
    rw [indexes_marker hlimit, indexes_marker hlimit, ih]

theorem lt_of_mem_indexes {t t' : Text} (h : Renamed nonce nonce' k t t') : ∀ i ∈ indexes nonce t, i < k := by
  induction h with
  | nil => simp [indexes_nil]
  | char hc _ ih => rwa [indexes_char hc]
  | marker hi _ ih =>
    rw [indexes_marker (Nat.lt_of_lt_of_le hi hk)]
    exact List.forall_mem_cons.2 ⟨hi, ih⟩

theorem isIn_eq {t t' : Text} (h : Renamed nonce nonce' k t t') : isIn nonce t = isIn nonce' t' := by
  rw [isIn, isIn, h.indexes_eq hk]

/-- **Where every marker is replaced, its nonce is gone.** -/
theorem replace_eq {f : Nat → Option Text} {t t' : Text} (h : Renamed nonce nonce' k t t')
    (hf : ∀ i ∈ indexes nonce t, ∃ x, f i = some x) : replace nonce f t = replace nonce' f t' := by
  induction h with
  | nil => rw [replace_nil, replace_nil]
  | char hc _ ih =>
    rw [indexes_char hc] at hf
    rw [replace_char hc, replace_char hc, ih hf]
  | @marker i t t' hi _ ih =>
    have hlimit := Nat.lt_of_lt_of_le hi hk
    rw [indexes_marker hlimit] at hf
    obtain ⟨⟨x, hx⟩, hf⟩ := List.forall_mem_cons.1 hf
    rw [replace_marker hlimit, replace_marker hlimit, hx, ih hf]
    rfl

theorem eq_of_not_isIn {t t' : Text} (h : Renamed nonce nonce' k t t') (ht : isIn nonce t = false) : t = t' := by
  have hnil : indexes nonce t = [] := by simpa [isIn] using ht
  induction h with
  | nil => rfl
  | char hc _ ih =>
    rw [isIn, indexes_char hc] at ht
    rw [indexes_char hc] at hnil
    rw [ih ht hnil]
  | marker hi _ _ =>
    rw [indexes_marker (Nat.lt_of_lt_of_le hi hk)] at hnil
    cases hnil

theorem eq_replace {t t' : Text} (h : Renamed nonce nonce' k t t') :
    t' = replace nonce (fun i => some (write nonce' i)) t := by
  induction h with
  | nil => rw [replace_nil]
  | char hc _ ih => rw [replace_char hc, ← ih]
  | marker hi _ ih =>
    rw [replace_marker (Nat.lt_of_lt_of_le hi hk), ← ih]
    rfl

/-- **Texts are equal under one nonce if they are under the other.** -/
theorem eq_iff {s s' t t' : Text} (hs : Renamed nonce nonce' k s s') (ht : Renamed nonce nonce' k t t') :
    s = t ↔ s' = t' := by
  constructor
  · rintro rfl
    exact (hs.eq_replace hk).trans (ht.eq_replace hk).symm
  · rintro rfl
    exact (hs.symm.eq_replace hk).trans (ht.symm.eq_replace hk).symm

end

end Renamed

/-! ## Joined segments -/

/-- **Segments without `$` are joined to renamed texts.** -/
theorem renamed_join : ∀ (segments : List Text) (i : Nat), (∀ s ∈ segments, '$' ∉ s) → i + segments.length ≤ k + 1 →
    Renamed nonce nonce' k (Template.join nonce i segments) (Template.join nonce' i segments)
  | [], _, _, _ => .nil
  | [s], _, h, _ => .refl_of_notMem (h s (List.mem_singleton_self s))
  | s :: t :: segments, i, h, hi => by
    obtain ⟨hs, hts⟩ := List.forall_mem_cons.1 h
    simp only [List.length_cons] at hi
    have hjoin := renamed_join (t :: segments) (i + 1) hts (by simp only [List.length_cons]; omega)
    have hlt : i < k := by omega
    rw [Template.join, Template.join, List.append_assoc, List.append_assoc]
    exact (Renamed.refl_of_notMem hs).append (.marker hlt hjoin)

end Marker
end SafeMarkup
