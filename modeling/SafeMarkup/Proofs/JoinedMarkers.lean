import SafeMarkup.Proofs.EscapedMarkers
import SafeMarkup.Proofs.Spans
import SafeMarkup.Template.Basic
/-!
# The markers of joined segments

Segments without `$` are joined to a text in which `$` stands in markers only (`Marker.Marked`).  Such a text may be cut
between spans and decoded without touching a marker, so the texts among its tokens have its markers in their order
(`marked_tokens`).
-/
namespace SafeMarkup

namespace Text

theorem infix_of_notMem {w s r : Text} {c : Char} (hc : c ∉ w) (h : w <:+: s ++ c :: r) : w <:+: s ∨ w <:+: r := by
  obtain ⟨u, v, h⟩ := h
  rw [List.append_assoc] at h
  obtain ⟨a, rfl, ha⟩ | ⟨a, rfl, ha⟩ := List.append_eq_append_iff.1 h
  · obtain ⟨b, rfl, hb⟩ | ⟨b, rfl, hb⟩ := List.append_eq_append_iff.1 ha
    · exact .inl ⟨u, b, by simp⟩
    · cases b with
      | nil => exact .inl ⟨u, [], by simp⟩
      | cons d b => exact absurd (by simp [(List.cons.inj hb).1]) hc
  · cases a with
    | nil =>
      cases w with
      | nil => exact .inl List.nil_infix
      | cons d w => exact absurd (by simp [(List.cons.inj ha).1]) hc
    | cons d a => exact .inr ⟨a, v, by rw [(List.cons.inj ha).2, List.append_assoc]; rfl⟩

end Text

namespace Reference

/-- Whether a reference to a character stands in a text. -/
def StandsIn (d : Char) (t : Text) : Prop :=
  ∃ body, body.length ≤ bodyLimit ∧ ofBody? body = some d ∧ '&' :: body ++ [';'] <:+: t

theorem StandsIn.mono {d : Char} {s t : Text} (h : StandsIn d s) (hst : s <:+: t) : StandsIn d t := by
  obtain ⟨body, hl, hb, hs⟩ := h
  exact ⟨body, hl, hb, hs.trans hst⟩

/-- Every reference is decoded: no other reference takes its `&`. -/
theorem mem_decode_of_standsIn {d : Char} {t : Text} (h : StandsIn d t) : d ∈ decode t := by
  obtain ⟨body, hl, hb, u, v, rfl⟩ := h
  have hsplit : u ++ ('&' :: body ++ [';']) ++ v = u ++ ('&' :: body ++ ';' :: v) := by simp
  have hbreaks : Breaks ('&' :: body ++ ';' :: v) := breaks_amp _
  rw [hsplit, decode_append u hbreaks, decode_reference body hl hb]
  exact List.mem_append_right _ (List.mem_cons_self ..)

theorem infix_of_read? {t rest : Text} {d : Char} (h : read? t = some (d, rest)) : rest <:+: t := by
  obtain ⟨body, rfl, -, -⟩ := read?_eq_some_iff.1 h
  exact ⟨body ++ [';'], [], by simp⟩

end Reference

namespace Marker

variable {nonce : Text}

/-! ## Markers as they are written -/

theorem isDigit_of_mem_decimal {c : Char} {i : Nat} (h : c ∈ Text.decimal i) : c.isDigit = true :=
  Nat.isDigit_of_mem_toDigits (by decide) (by decide) h

theorem digitsValue_eq {digits : Text} (h : ∀ c ∈ digits, c.isDigit = true) (n : Nat) :
    digits.foldl (fun n c => 10 * n + Text.digitsValue.digitValue c) n = Nat.ofDigitChars 10 digits n := by
  induction digits generalizing n with
  | nil => rfl
  | cons c digits ih =>
    obtain ⟨hc, hd⟩ := List.forall_mem_cons.1 h
    rw [List.foldl_cons, ih hd, Nat.ofDigitChars_cons, Text.digitsValue.digitValue, if_pos hc]

theorem digitsValue_decimal (i : Nat) : Text.digitsValue 10 (Text.decimal i) = i := by
  rw [Text.digitsValue, digitsValue_eq fun c => isDigit_of_mem_decimal]
  exact Nat.ofDigitChars_ten_toDigits

/-- **A marker is read as it was written**, whatever follows it. -/
theorem read?_write {i : Nat} (hi : i < indexLimit) (t : Text) :
    read? nonce (write nonce i ++ t) = some (Text.decimal i, t) :=
  read?_marker Nat.toDigits_ne_nil (fun _ => isDigit_of_mem_decimal) ((digitsValue_decimal i).trans_lt hi) t

theorem pieces_eq_of_read? {t digits rest : Text} (h : read? nonce t = some (digits, rest)) :
    pieces nonce t = .marker digits :: pieces nonce rest := by
  cases t with
  | nil => exact absurd (read?_length h) (Nat.not_lt_zero _)
  | cons c t => exact pieces_of_read? h

/-! ## Texts whose `$` stand in markers -/

/-- A text in which `$` stands in markers only, and the numbers of its markers. -/
inductive Marked (nonce : Text) : Text → List Nat → Prop where
  | nil : Marked nonce [] []
  | char {c : Char} {t : Text} {is : List Nat} (hc : c ≠ '$') (h : Marked nonce t is) : Marked nonce (c :: t) is
  | marker {i : Nat} {t : Text} {is : List Nat} (hi : i < indexLimit) (h : Marked nonce t is) :
    Marked nonce (write nonce i ++ t) (i :: is)

theorem Marked.indexes {t : Text} {is : List Nat} (h : Marked nonce t is) : indexes nonce t = is := by
  induction h with
  | nil => rw [Marker.indexes, pieces_nil]; rfl
  | char hc h ih =>
    rw [Marker.indexes, pieces_of_read?_none (read?_cons_of_ne hc _)]
    exact ih
  | @marker i t is hi h ih =>
    rw [Marker.indexes, pieces_eq_of_read? (read?_write hi t), List.filterMap_cons_some (b := i)]
    · exact congrArg (List.cons i) ih
    · exact congrArg some (digitsValue_decimal i)

theorem Marked.append {s t : Text} {is js : List Nat} (hs : Marked nonce s is) (ht : Marked nonce t js) :
    Marked nonce (s ++ t) (is ++ js) := by
  induction hs with
  | nil => exact ht
  | char hc _ ih => exact .char hc ih
  | marker hi _ ih =>
    rw [List.append_assoc]
    exact .marker hi ih

theorem marked_of_notMem {t : Text} (h : '$' ∉ t) : Marked nonce t [] := by
  induction t with
  | nil => exact .nil
  | cons c t ih =>
    rw [List.mem_cons, not_or] at h
    exact .char (Ne.symm h.1) (ih h.2)

theorem Marked.of_append {x y : Text} {is : List Nat} (hx : '$' ∉ x) (h : Marked nonce (x ++ y) is) :
    Marked nonce y is := by
  induction x with
  | nil => exact h
  | cons c x ih =>
    rw [List.mem_cons, not_or] at hx
    rw [List.cons_append] at h
    generalize ht : c :: (x ++ y) = t at h
    cases h with
    | nil => cases ht
    | char hc h =>
      obtain ⟨rfl, rfl⟩ := List.cons.inj ht
      exact ih hx.2 h
    | marker hi h => exact absurd (List.cons.inj ht).1.symm hx.1

theorem inText_of_mem_write (hn : IsNonce nonce) {i : Nat} {c : Char} (hc : c ∈ write nonce i) :
    Reference.inText c = [c] :=
  inText_of_mem_source hn (fun _ => isDigit_of_mem_decimal) hc

/-- No seam is in a marker: it holds neither `<` nor `>`. -/
theorem eq_nil_or_of_seam (hn : IsNonce nonce) {x y t : Text} {i : Nat} (hs : Span.Seam x y)
    (h : x ++ y = write nonce i ++ t) : x = [] ∨ ∃ a, x = write nonce i ++ a ∧ t = a ++ y := by
  have hlt : '<' ∉ write nonce i := fun hm => absurd (inText_of_mem_write hn hm) (by decide)
  have hgt : '>' ∉ write nonce i := fun hm => absurd (inText_of_mem_write hn hm) (by decide)
  obtain ⟨a, ha, rfl⟩ | ha := List.append_eq_append_iff.1 h
  · cases a with
    | nil => exact .inr ⟨[], by simpa using ha.symm, rfl⟩
    | cons d a =>
      rcases hs with hy | ⟨z, hy⟩ | ⟨u, hu⟩
      · cases hy
      · exact absurd (by rw [ha, (List.cons.inj hy).1]; simp) hlt
      · exact absurd (by rw [ha, hu]; simp) hgt
  · exact .inr ha

/-- **A text is cut between spans without cutting a marker.** -/
theorem Marked.split (hn : IsNonce nonce) {x y : Text} {is : List Nat} (h : Marked nonce (x ++ y) is)
    (hs : x = [] ∨ Span.Seam x y) : ∃ js ks, is = js ++ ks ∧ Marked nonce x js ∧ Marked nonce y ks := by
  generalize ht : x ++ y = t at h
  induction h generalizing x with
  | nil =>
    obtain ⟨rfl, rfl⟩ := List.append_eq_nil_iff.1 ht
    exact ⟨[], [], rfl, .nil, .nil⟩
  | @char c t is hc h ih =>
    cases x with
    | nil =>
      subst ht
      exact ⟨[], is, rfl, .nil, .char hc h⟩
    | cons d x =>
      obtain ⟨rfl, htail⟩ := List.cons.inj ht
      have hseam := Span.Seam.of_append_left (s := [d]) (hs.resolve_left (List.cons_ne_nil d x))
      obtain ⟨js, ks, his, hx, hy⟩ := ih hseam htail
      exact ⟨js, ks, his, .char hc hx, hy⟩
  | @marker i t is hi h ih =>
    have hcut : x = [] ∨ ∃ a, x = write nonce i ++ a ∧ t = a ++ y :=
      hs.elim .inl fun hs => eq_nil_or_of_seam hn hs ht
    rcases hcut with rfl | ⟨a, rfl, hrest⟩
    · rw [List.nil_append] at ht
      subst ht
      exact ⟨[], i :: is, rfl, .nil, .marker hi h⟩
    · have hseam := Span.Seam.of_append_left (hs.resolve_left (by simp [write, fence, lead]))
      obtain ⟨js, ks, rfl, hx, hy⟩ := ih hseam hrest.symm
      exact ⟨i :: js, ks, rfl, .marker hi hx, hy⟩

theorem body_notMem {body : Text} {d : Char} (hb : Reference.ofBody? body = some d) : '$' ∉ body := fun hm =>
  absurd (Reference.isBodyChar_of_ofBody? hb _ hm) (by decide)

/-- A reference is read without a marker. -/
theorem Marked.of_read? {t rest : Text} {is : List Nat} {d : Char} (h : Marked nonce t is)
    (hr : Reference.read? t = some (d, rest)) : Marked nonce rest is ∧ Reference.StandsIn d ('&' :: t) := by
  obtain ⟨body, rfl, hl, hb⟩ := Reference.read?_eq_some_iff.1 hr
  have hbody : '$' ∉ body ++ [';'] := by simp [body_notMem hb]
  exact ⟨Marked.of_append hbody (by simpa using h), body, hl, hb, [], rest, by simp⟩

theorem length_write_pos (i : Nat) : 0 < (write nonce i).length := by simp [write, fence]

/-- **Decoding touches no marker**, and makes none. -/
theorem Marked.decode (hn : IsNonce nonce) {t : Text} {is : List Nat} (h : Marked nonce t is)
    (hd : ¬Reference.StandsIn '$' t) : Marked nonce (Reference.decode t) is := by
  -- on the length: behind a reference the text goes on where no marker of it began
  obtain ⟨k, hk⟩ : ∃ k, t.length = k := ⟨_, rfl⟩
  induction k using Nat.strong_induction_on generalizing t is with
  | _ k ih =>
  cases h with
  | nil =>
    rw [Reference.decode_nil]
    exact .nil
  | @marker i t is hi h =>
    have hamp : '&' ∉ write nonce i := fun hm => absurd (inText_of_mem_write hn hm) (by decide)
    have hlt : t.length < k := by
      rw [← hk, List.length_append]
      exact Nat.lt_add_of_pos_left (length_write_pos i)
    rw [Reference.decode_append_of_notMem hamp]
    exact .marker hi (ih _ hlt h (fun hs => hd (hs.mono (List.suffix_append _ t).isInfix)) rfl)
  | @char c t is hc h =>
    have hlt : t.length < k := by
      rw [← hk]
      exact Nat.lt_succ_self _
    have hdt : ¬Reference.StandsIn '$' t := fun hs => hd (hs.mono (List.suffix_cons c t).isInfix)
    by_cases hamp : c = '&'
    · subst hamp
      cases hr : Reference.read? t with
      | none =>
        rw [Reference.decode_of_read?_none hr]
        exact .char hc (ih _ hlt h hdt rfl)
      | some r =>
        obtain ⟨hrest, hstands⟩ := h.of_read? hr
        have hne : r.1 ≠ '$' := fun he => hd (he ▸ hstands)
        have hsub : r.2 <:+: t := Reference.infix_of_read? hr
        rw [Reference.decode_of_read? hr]
        exact .char hne (ih _ (Nat.lt_trans (Reference.read?_length hr) hlt) hrest (fun hs => hdt (hs.mono hsub)) rfl)
    · rw [Reference.decode_cons_of_ne hamp]
      exact .char hc (ih _ hlt h hdt rfl)

/-! ## The texts among the tokens -/

/-- Markers in the texts of some tokens, in their order, all of them among some numbers. -/
def MarkedTokens (nonce : Text) (ts : List (Token Text)) (is : List Nat) : Prop :=
  (ts.flatMap fun tok => Marker.indexes nonce tok.content).Sublist is ∧ ∀ t, .text t ∈ ts → ∃ js, Marked nonce t js

theorem indexes_nil : Marker.indexes nonce [] = [] := Marked.nil.indexes

theorem markedTokens_nil (is : List Nat) : MarkedTokens nonce [] is := ⟨List.nil_sublist _, by simp⟩

theorem MarkedTokens.cons {tok : Token Text} {ts : List (Token Text)} {is : List Nat} (ht : tok.content = [])
    (h : MarkedTokens nonce ts is) (hne : ∀ t, tok ≠ .text t) : MarkedTokens nonce (tok :: ts) is := by
  refine ⟨?_, fun t hm => ?_⟩
  · rw [List.flatMap_cons, ht, indexes_nil]
    exact h.1
  · rcases List.mem_cons.1 hm with he | hm
    · exact absurd he.symm (hne t)
    · exact h.2 t hm

theorem MarkedTokens.cons_text {t : Text} {ts : List (Token Text)} {is js : List Nat} (ht : Marked nonce t is)
    (h : MarkedTokens nonce ts js) : MarkedTokens nonce (.text t :: ts) (is ++ js) := by
  refine ⟨?_, fun u hm => ?_⟩
  · rw [List.flatMap_cons, Token.content, ht.indexes]
    exact (List.Sublist.refl is).append h.1
  · rcases List.mem_cons.1 hm with he | hm
    · obtain rfl := Token.text.inj he
      exact ⟨is, ht⟩
    · exact h.2 u hm

theorem MarkedTokens.append {ts us : List (Token Text)} {is js : List Nat} (h : MarkedTokens nonce ts is)
    (h' : MarkedTokens nonce us js) : MarkedTokens nonce (ts ++ us) (is ++ js) := by
  refine ⟨?_, fun t hm => ?_⟩
  · rw [List.flatMap_append]
    exact h.1.append h'.1
  · rcases List.mem_append.1 hm with hm | hm
    · exact h.2 t hm
    · exact h'.2 t hm

/-- **What a span gives has markers of what it takes.** -/
theorem markedTokens_of_gives (hn : IsNonce nonce) {x : Text} {ts : List (Token Text)} {is : List Nat}
    (hg : Span.Gives x ts) (h : Marked nonce x is) (hd : ¬Reference.StandsIn '$' x) : MarkedTokens nonce ts is := by
  cases hg with
  | run =>
    rw [← List.append_nil is]
    exact .cons_text (h.decode hn hd) (markedTokens_nil [])
  | nothing => exact markedTokens_nil is
  | doctype t => exact .cons rfl (markedTokens_nil is) (by simp)
  | comment _ => exact .cons rfl (markedTokens_nil is) (by simp)
  | endTag name => exact .cons rfl (markedTokens_nil is) (by simp)
  | startTag => exact .cons rfl (markedTokens_nil is) (by simp)
  | @rawText name as u t v _ _ _ _ _ hx hu hs =>
    subst hx
    rw [List.append_assoc] at h
    obtain ⟨js, ks, rfl, -, htv⟩ := h.split hn (.inr hu)
    obtain ⟨ks, ls, rfl, ht, -⟩ := htv.split hn (.inr hs)
    refine .cons rfl ?_ (by simp)
    split
    · exact .cons rfl (markedTokens_nil _) (by simp)
    · have hcons : MarkedTokens nonce [.text t, .endTag name] (ks ++ []) :=
        .cons_text ht (.cons rfl (markedTokens_nil []) (by simp))
      rw [List.append_nil] at hcons
      refine ⟨hcons.1.trans ?_, hcons.2⟩
      exact (List.sublist_append_left ks ls).trans (List.sublist_append_right js _)

/-- **The texts among the tokens of a text have its markers in their order.** -/
theorem markedTokens_tokens (hn : IsNonce nonce) : ∀ (t : Text) {is : List Nat}, Marked nonce t is →
    ¬Reference.StandsIn '$' t → MarkedTokens nonce (tokens t) is
  | [], is, _, _ => by
    rw [tokens_nil]
    exact markedTokens_nil is
  | c :: t, is, h, hd => by
    obtain ⟨x, hx, hs, hg⟩ := Span.read_takes (List.cons_ne_nil c t)
    have hxt : x <:+: c :: t := ⟨[], _, hx.symm⟩
    have hrest : (Span.read (c :: t)).rest <:+: c :: t := ⟨x, [], by rw [List.append_nil, ← hx]⟩
    rw [hx] at h
    obtain ⟨js, ks, rfl, hjs, hks⟩ := h.split hn (.inr hs)
    rw [tokens_cons]
    refine (markedTokens_of_gives hn hg hjs fun hm => hd (hm.mono hxt)).append ?_
    exact markedTokens_tokens hn _ hks fun hm => hd (hm.mono hrest)
termination_by t => t.length
decreasing_by exact Span.read_length

/-! ## Joined segments -/

theorem marked_join : ∀ (segments : List Text) (k : Nat), (∀ s ∈ segments, '$' ∉ s) →
    k + segments.length ≤ indexLimit + 1 →
    Marked nonce (Template.join nonce k segments) (List.range' k (segments.length - 1))
  | [], _, _, _ => .nil
  | [s], _, h, _ => marked_of_notMem (h s (List.mem_singleton_self s))
  | s :: t :: segments, k, h, hk => by
    obtain ⟨hs, hts⟩ := List.forall_mem_cons.1 h
    have hjoin := marked_join (t :: segments) (k + 1) hts (by simp only [List.length_cons] at hk ⊢; omega)
    have hlimit : k < indexLimit := by
      simp only [List.length_cons] at hk
      omega
    rw [Template.join, List.append_assoc]
    exact (marked_of_notMem hs).append (.marker hlimit hjoin)

/-- A reference in the joined segments stands in one of them: none reaches across a marker. -/
theorem standsIn_join (hn : IsNonce nonce) {d : Char} : ∀ (segments : List Text) (k : Nat),
    Reference.StandsIn d (Template.join nonce k segments) → ∃ s ∈ segments, Reference.StandsIn d s
  | [], _, ⟨body, _, _, h⟩ => by simpa using List.infix_nil.1 h
  | [s], _, h => ⟨s, List.mem_singleton_self s, h⟩
  | s :: t :: segments, k, ⟨body, hl, hb, h⟩ => by
    have hw : '$' ∉ '&' :: body ++ [';'] := by simp [body_notMem hb]
    have hsplit : Template.join nonce k (s :: t :: segments) = s ++ '$' :: ('$' :: '$' :: nonce ++
        ':' :: Text.decimal k ++ ['$', '$'] ++ '$' :: Template.join nonce (k + 1) (t :: segments)) := by
      simp [Template.join, write, lead, fence]
    rw [hsplit] at h
    rcases Text.infix_of_notMem hw h with h | h
    · exact ⟨s, List.mem_cons_self .., body, hl, hb, h⟩
    · rcases Text.infix_of_notMem hw h with h | h
      · have hm : '&' ∈ write nonce k := by
          have hmid := h.subset (List.mem_cons_self ..)
          have hwrite : write nonce k =
              '$' :: ('$' :: '$' :: nonce ++ ':' :: Text.decimal k ++ ['$', '$']) ++ ['$'] := by
            simp [write, lead, fence]
          rw [hwrite]
          exact List.mem_append_left _ (List.mem_cons_of_mem _ hmid)
        exact absurd (inText_of_mem_write hn hm) (by decide)
      · obtain ⟨u, hu, hs⟩ := standsIn_join hn (t :: segments) (k + 1) ⟨body, hl, hb, h⟩
        exact ⟨u, List.mem_cons_of_mem s hu, hs⟩

theorem not_standsIn_join (hn : IsNonce nonce) {d : Char} {segments : List Text}
    (h : ∀ s ∈ segments, d ∉ Reference.decode s) : ¬Reference.StandsIn d (Template.join nonce 0 segments) := by
  intro hin
  obtain ⟨s, hm, hs⟩ := standsIn_join hn segments 0 hin
  exact h s hm (Reference.mem_decode_of_standsIn hs)

end Marker
end SafeMarkup
