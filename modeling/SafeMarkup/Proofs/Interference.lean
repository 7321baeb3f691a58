import SafeMarkup.Proofs.Rendering
/-!
# Texts among the values do not interfere

Two lists of values agree where they hold the same trusted markup, or texts, whatever these are.  Rendered with either
of them a template is refused for the same reason, or read as trees that are the same but for the values and texts that
hold the marker of a text (`render_agrees`).  Trusted markup may be any markup at all.
-/
namespace SafeMarkup

/-- Two values agree if both are the same trusted markup, or both are texts. -/
inductive Interpolation.Agrees : Interpolation → Interpolation → Prop where
  | trusted (m : Trusted) : Agrees (.trusted m) (.trusted m)
  | text (s t : Text) : Agrees (.text s) (.text t)

theorem Interpolation.Agrees.isSome_trusted? {v w : Interpolation} (h : v.Agrees w) :
    v.trusted?.isSome = w.trusted?.isSome := by
  cases h <;> rfl

/-- Two runs that end alike: one refusal, or results that are related. -/
inductive TwoRuns {α : Type} (R : α → α → Prop) : Except Refusal α → Except Refusal α → Prop where
  | refused (r : Refusal) : TwoRuns R (.error r) (.error r)
  | done {a b : α} (h : R a b) : TwoRuns R (.ok a) (.ok b)

theorem TwoRuns.imp {α : Type} {R S : α → α → Prop} {x y : Except Refusal α} (h : TwoRuns R x y)
    (hRS : ∀ a b, R a b → S a b) : TwoRuns S x y := by
  cases h with
  | refused r => exact .refused r
  | done hab => exact .done (hRS _ _ hab)

theorem TwoRuns.bind {α β : Type} {R : α → α → Prop} {S : β → β → Prop} {x y : Except Refusal α}
    {f g : α → Except Refusal β} (h : TwoRuns R x y) (hfg : ∀ a b, R a b → TwoRuns S (f a) (g b)) :
    TwoRuns S (x >>= f) (y >>= g) := by
  cases h with
  | refused r => exact .refused r
  | done hab => exact hfg _ _ hab

namespace Template

section

variable (nonce : Text) (values : List Interpolation)

/-- Whether a marker of a text stands for a value that is a text. -/
def HoldsText (t : Text) : Prop := ∃ i ∈ Marker.indexes nonce t, ∃ s, values[i]? = some (.text s)

/-- Attributes read for those of a template in two runs.  They differ in values that hold texts, and in nothing else. -/
inductive SameAttributes : List (Attribute Text) → List (Attribute Text) → List (Attribute Text) → Prop where
  | nil : SameAttributes [] [] []
  | cons {a : Attribute Text} {v v' : Option Text} {as bs bs' : List (Attribute Text)}
      (hv : v = v' ∨ HoldsText nonce values (a.value.getD [])) (h : SameAttributes as bs bs') :
      SameAttributes (a :: as) (⟨a.name, v⟩ :: bs) (⟨a.name, v'⟩ :: bs')

/-- Nodes read for those of a template in two runs.  They differ in texts and attribute values that hold texts, and in
nothing else. -/
inductive SameNodes : List Node → List Node → List Node → Prop where
  | nil : SameNodes [] [] []
  | element {name : Text} {as bs bs' : List (Attribute Text)} {cs ds ds' ns ms ms' : List Node}
      (hs : isSlot nonce cs = false) (ha : SameAttributes nonce values as bs bs') (hc : SameNodes cs ds ds')
      (h : SameNodes ns ms ms') :
      SameNodes (.element name as cs :: ns) (.element name bs ds :: ms) (.element name bs' ds' :: ms')
  | slot {name : Text} {as bs bs' : List (Attribute Text)} {cs ds ns ms ms' : List Node}
      (hs : isSlot nonce cs = true) (ha : SameAttributes nonce values as bs bs') (h : SameNodes ns ms ms') :
      SameNodes (.element name as cs :: ns) (.element name bs ds :: ms) (.element name bs' ds :: ms')
  | text {t s s' : Text} {ns ms ms' : List Node} (ht : s = s' ∨ HoldsText nonce values t) (h : SameNodes ns ms ms') :
      SameNodes (.text t :: ns) (shownText s ++ ms) (shownText s' ++ ms')
  | comment {t : Text} {ns ms ms' : List Node} (h : SameNodes ns ms ms') :
      SameNodes (.comment t :: ns) (.comment t :: ms) (.comment t :: ms')

end

variable {nonce : Text} {values values' : List Interpolation}

/-! ## What agreeing values have in common -/

theorem getElem?_of_forall₂ {α β : Type} {R : α → β → Prop} {xs : List α} {ys : List β} (h : List.Forall₂ R xs ys)
    (i : Nat) : (xs[i]? = none ∧ ys[i]? = none) ∨ ∃ x y, xs[i]? = some x ∧ ys[i]? = some y ∧ R x y := by
  induction h generalizing i with
  | nil => exact .inl ⟨rfl, rfl⟩
  | cons hxy _ ih =>
    cases i with
    | zero => exact .inr ⟨_, _, rfl, rfl, hxy⟩
    | succ i => exact ih i

theorem isTextAt_congr {R : Interpolation → Interpolation → Prop}
    (hR : ∀ v w, R v w → v.trusted?.isSome = w.trusted?.isSome) (h : List.Forall₂ R values values') :
    isTextAt values = isTextAt values' := by
  funext i
  obtain ⟨hx, hy⟩ | ⟨x, y, hx, hy, hxy⟩ := getElem?_of_forall₂ h i
  · simp only [isTextAt, hx, hy]
  · have hxy := hR x y hxy
    cases x <;> cases y <;> simp_all [isTextAt, Interpolation.trusted?]

theorem markupAt_congr (h : List.Forall₂ Interpolation.Agrees values values') : markupAt values = markupAt values' := by
  funext i
  obtain ⟨hx, hy⟩ | ⟨x, y, hx, hy, hxy⟩ := getElem?_of_forall₂ h i
  · simp only [markupAt, hx, hy]
  · cases hxy <;> simp only [markupAt, hx, hy]

/-- What is refused depends on which values are texts and on nothing else. -/
theorem refusals_congr (h : isTextAt values = isTextAt values') (n : Node) :
    refusals nonce values n = refusals nonce values' n := by
  induction n with
  | element name as cs ih =>
    rw [refusals, refusals, untrusted, untrusted, h, refusalsAll_eq_flatMap, refusalsAll_eq_flatMap]
    split
    · rfl
    · rw [List.flatMap_def, List.flatMap_def, List.map_congr_left ih]
  | text t => rfl
  | comment t => rfl

theorem slotContent_congr (h : markupAt values = markupAt values') (name : Text) (cs : List Node) :
    slotContent nonce values name cs = slotContent nonce values' name cs := by
  rw [slotContent, slotContent, spliced, spliced, h]

theorem fill_congr {t : Text}
    (h : ∀ i ∈ Marker.indexes nonce t, values[i]?.map Interpolation.asText = values'[i]?.map Interpolation.asText) :
    fill nonce values t = fill nonce values' t :=
  replace_congr h

theorem fill_eq_or_holdsText (h : List.Forall₂ Interpolation.Agrees values values') (t : Text) :
    fill nonce values t = fill nonce values' t ∨ HoldsText nonce values t := by
  by_cases ht : HoldsText nonce values t
  · exact .inr ht
  · refine .inl (fill_congr fun i hi => ?_)
    obtain ⟨hx, hy⟩ | ⟨x, y, hx, hy, hxy⟩ := getElem?_of_forall₂ h i
    · rw [hx, hy]
    · cases hxy with
      | trusted m => rw [hx, hy]
      | text s t => exact absurd ⟨i, hi, s, hx⟩ ht

/-! ## Two runs of one template -/

theorem sameAttributes_map (h : List.Forall₂ Interpolation.Agrees values values') :
    ∀ as : List (Attribute Text), SameAttributes nonce values as (as.map (shownAttribute nonce values))
      (as.map (shownAttribute nonce values'))
  | [] => .nil
  | a :: as => .cons ((fill_eq_or_holdsText h (a.value.getD [])).imp_left (congrArg some)) (sameAttributes_map h as)

/-- **Trees filled with agreeing values are read alike.** -/
theorem sameNodes_filledAll (h : List.Forall₂ Interpolation.Agrees values values') :
    ∀ ns : List Node, SameNodes nonce values ns (Node.asReadAll (filledAll nonce values ns))
      (Node.asReadAll (filledAll nonce values' ns))
  | [] => .nil
  | .text t :: ns => by
    rw [filledAll, filledAll, filled, filled, asReadAll_text, asReadAll_text]
    exact .text (fill_eq_or_holdsText h t) (sameNodes_filledAll h ns)
  | .comment t :: ns => .comment (sameNodes_filledAll h ns)
  | .element name as cs :: ns => by
    rw [filledAll, filledAll, filled, filled, asReadAll_element, asReadAll_element, valued_fillAttributes,
      valued_fillAttributes]
    by_cases hs : isSlot nonce cs = true
    · rw [if_pos hs, if_pos hs, slotContent_congr (markupAt_congr h)]
      exact .slot hs (sameAttributes_map h as) (sameNodes_filledAll h ns)
    · rw [if_neg hs, if_neg hs]
      exact .element (by simpa using hs) (sameAttributes_map h as) (sameNodes_filledAll h cs) (sameNodes_filledAll h ns)

theorem each_rawClosed_filled_congr (h : markupAt values = markupAt values') (n : Node) (hs : n.Each Node.Sound)
    (hc : (filled nonce values n).Each Node.RawClosed) : (filled nonce values' n).Each Node.RawClosed := by
  induction n with
  | element name as cs ih =>
    obtain ⟨hfit, hscs⟩ := Node.each_element.1 hs
    rw [filled] at hc ⊢
    obtain ⟨hraw, hccs⟩ := Node.each_element.1 hc
    by_cases hslot : isSlot nonce cs = true
    · rw [if_pos hslot] at hraw hccs ⊢
      rw [← slotContent_congr h]
      exact Node.each_element.2 ⟨hraw, hccs⟩
    · rw [if_neg hslot] at hraw hccs ⊢
      refine Node.each_element.2 ⟨fun hr => ?_, fun c hc => ?_⟩
      · have hraw := hraw hr
        rw [filledAll_of_isRawText hfit hr (by simpa using hslot)] at hraw ⊢
        exact hraw
      · rw [filledAll_eq_map] at hc hccs
        obtain ⟨d, hd, rfl⟩ := List.mem_map.1 hc
        exact ih d hd (hscs d hd) (hccs _ (List.mem_map_of_mem hd))
  | text t => exact Node.each_text.2 trivial
  | comment t => exact Node.each_comment.2 trivial

/-- Values of which the same are texts are refused alike, or rendered. -/
theorem twoRuns_render {segments : List Text} {R : Trusted → Trusted → Prop} (hv : values ≠ [])
    (hl : values.length = values'.length) (h : isTextAt values = isTextAt values')
    (hR : refusals nonce values (tree nonce segments) = [] →
      R ⟨(filled nonce values (tree nonce segments)).inner⟩ ⟨(filled nonce values' (tree nonce segments)).inner⟩) :
    TwoRuns R (render nonce values segments) (render nonce values' segments) := by
  have hv' : values' ≠ [] := by
    rintro rfl
    exact hv (List.length_eq_zero_iff.1 hl)
  by_cases hs : segments.length = values.length + 1
  · rw [render_eq hv hs, render_eq hv' (hs.trans (by rw [hl])), ← refusals_congr h]
    cases hr : refusals nonce values (tree nonce segments) with
    | cons i is => exact .refused (.untrustedMarkup i)
    | nil => exact .done (hR hr)
  · have hs' : segments.length ≠ values'.length + 1 := by rwa [← hl]
    rw [render, render, if_pos hs, if_pos hs', hl]
    exact .refused _

/-- **The texts among the values decide nothing but texts and attribute values.**  One refusal for all of them, or trees
that are the same but for the texts and values that hold one. -/
theorem render_agrees {segments : List Text} (hv : values ≠ [])
    (h : List.Forall₂ Interpolation.Agrees values values') :
    TwoRuns (fun m m' => ∃ r, resolve nonce values (tree nonce segments) = .ok r ∧ (r.Each Node.RawClosed →
        SameNodes nonce values [tree nonce segments] [Node.parse m.content] [Node.parse m'.content]))
      (render nonce values segments) (render nonce values' segments) := by
  refine twoRuns_render hv h.length_eq (isTextAt_congr (fun _ _ => Interpolation.Agrees.isSome_trusted?) h) fun hr => ?_
  refine ⟨filled nonce values (tree nonce segments), by rw [resolve_eq, hr]; rfl, fun hc => ?_⟩
  have hc' := each_rawClosed_filled_congr (markupAt_congr h) _ (each_sound_tree segments) hc
  rw [parse_inner_filled hc, parse_inner_filled hc']
  exact sameNodes_filledAll h [tree nonce segments]

theorem render_agrees_comment :
    SameNodes ['a'] [.trusted ⟨"<!--".toList⟩, .text ['x']] [tree ['a'] ["<b>".toList, "</b>".toList, []]]
      [Node.parse "<b><!----></b>x".toList] [Node.parse "<b><!----></b>--&gt;".toList] := by
  have h : List.Forall₂ Interpolation.Agrees [.trusted ⟨"<!--".toList⟩, .text ['x']]
      [.trusted ⟨"<!--".toList⟩, .text "-->".toList] := .cons (.trusted _) (.cons (.text _ _) .nil)
  have hm : render ['a'] [.trusted ⟨"<!--".toList⟩, .text ['x']] ["<b>".toList, "</b>".toList, []] =
      .ok ⟨"<b><!----></b>x".toList⟩ := by decide +kernel
  have hm' : render ['a'] [.trusted ⟨"<!--".toList⟩, .text "-->".toList] ["<b>".toList, "</b>".toList, []] =
      .ok ⟨"<b><!----></b>--&gt;".toList⟩ := by decide +kernel
  have hruns := @render_agrees ['a'] _ _ ["<b>".toList, "</b>".toList, []] (by simp) h
  rw [hm, hm'] at hruns
  cases hruns with
  | done hr =>
    obtain ⟨r, hr, hsame⟩ := hr
    rw [resolve_eq] at hr
    obtain rfl := (refusing_eq_ok.1 hr).2
    exact hsame (by decide +kernel)

end Template
end SafeMarkup
