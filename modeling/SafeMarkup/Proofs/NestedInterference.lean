import SafeMarkup.Proofs.Interference
import SafeMarkup.Proofs.Skeleton
import SafeMarkup.Proofs.EscapedMarkers
import SafeMarkup.Template.Nested
/-!
# Nested templates keep their skeleton

Two expressions vary if they are built alike from templates and escaped texts, and hold other texts.  Whatever the
texts, both are refused for one reason, or rendered as markup of one skeleton (`Nested.eval_skeleton`).  What carries the
induction over the nesting is that whatever is rendered is closed markup: spliced into a template it is read there as it
is read alone.
-/
namespace SafeMarkup

/-- Values of two runs: texts, or trusted markup that is read alike. -/
inductive Interpolation.Alike : Interpolation → Interpolation → Prop where
  | trusted {m m' : Trusted} (h : Text.Alike m.content m'.content) : Alike (.trusted m) (.trusted m')
  | text (s t : Text) : Alike (.text s) (.text t)

/-- No text of a raw-text element holds a marker. -/
def Node.RawUnmarked (nonce : Text) : Node → Prop
  | .element name _ cs => Element.isRawText name = true → ∀ c ∈ cs, Marker.isIn nonce c.ownText = false
  | _ => True

instance (nonce : Text) : DecidablePred (Node.RawUnmarked nonce)
  | .element name _ cs =>
    inferInstanceAs (Decidable (Element.isRawText name = true → ∀ c ∈ cs, Marker.isIn nonce c.ownText = false))
  | .text _ => .isTrue trivial
  | .comment _ => .isTrue trivial

theorem Interpolation.Alike.isSome_trusted? {v w : Interpolation} (h : v.Alike w) :
    v.trusted?.isSome = w.trusted?.isSome := by
  cases h <;> rfl

namespace Marker

variable {nonce : Text}

theorem closed_source (hn : IsNonce nonce) {t digits : Text} (h : .marker digits ∈ pieces nonce t) :
    Text.Closed ((Piece.marker digits).source nonce) [.text ((Piece.marker digits).source nonce)] := by
  have hplain : ∀ c ∈ (Piece.marker digits).source nonce, Reference.inText c = [c] := fun c hc =>
    inText_of_mem_source hn (digits_of_mem_pieces h) hc
  have hescape : escapeText ((Piece.marker digits).source nonce) = (Piece.marker digits).source nonce := by
    rw [escapeText, List.flatMap_def, List.map_congr_left hplain, ← List.flatMap_def]
    exact List.flatMap_singleton' _
  have hclosed := Text.closed_escapeText ((Piece.marker digits).source nonce)
  rwa [hescape] at hclosed

end Marker

namespace Template

variable {nonce : Text} {values values' : List Interpolation}

theorem alike_shown (hn : Marker.IsNonce nonce) (h : List.Forall₂ Interpolation.Alike values values') {t : Text}
    {p : Marker.Piece} (hp : p ∈ Marker.pieces nonce t) :
    Text.Alike (p.shown nonce (markupAt values)) (p.shown nonce (markupAt values')) := by
  cases p with
  | char c =>
    have hclosed := Text.closed_escapeText [c]
    rw [escapeText, List.flatMap_singleton] at hclosed
    exact hclosed.alike
  | marker digits =>
    have hsource := (Marker.closed_source hn hp).alike
    rw [Marker.Piece.shown, Marker.Piece.shown, markupAt, markupAt]
    obtain ⟨hx, hy⟩ | ⟨x, y, hx, hy, hxy⟩ := getElem?_of_forall₂ h (Text.digitsValue 10 digits)
    · rw [hx, hy]
      exact hsource
    · rw [hx, hy]
      cases hxy with
      | trusted hm => exact hm
      | text s t => exact hsource

/-- **Like markup in the place of the markers of an escaped text gives like markup.** -/
theorem alike_spliced (hn : Marker.IsNonce nonce) (h : List.Forall₂ Interpolation.Alike values values') (t : Text) :
    Text.Alike (spliced nonce values (escapeText t)) (spliced nonce values' (escapeText t)) := by
  rw [spliced, spliced, Marker.replace_escapeText hn, Marker.replace_escapeText hn]
  exact Text.alike_flatMap fun p hp => alike_shown hn h hp

theorem slotContent_text {name t : Text} (hr : Element.isRawText name = false) :
    slotContent nonce values name [.text t] = (Node.parse (spliced nonce values (escapeText t))).children := by
  rw [slotContent, hr, Node.writeAll, Node.writeAll, Node.write, content, if_neg (by simp [hr]), List.append_nil]
  rfl

theorem isRawText_of_isSlot {name : Text} {as : List (Attribute Text)} {cs : List Node} (hs : isSlot nonce cs = true)
    (h : Node.RawUnmarked nonce (.element name as cs)) : Element.isRawText name = false := by
  obtain ⟨t, rfl, ht⟩ := isSlot_eq_true.1 hs
  refine Bool.eq_false_iff.2 fun hr => ?_
  have := h hr _ (List.mem_singleton_self _)
  rw [Node.ownText, ht] at this
  cases this

theorem skeleton_filled (hn : Marker.IsNonce nonce) (h : List.Forall₂ Interpolation.Alike values values') (n : Node)
    (hu : n.Each (Node.RawUnmarked nonce)) : (filled nonce values n).skeleton = (filled nonce values' n).skeleton := by
  induction n with
  | element name as cs ih =>
    obtain ⟨hraw, hcs⟩ := Node.each_element.1 hu
    rw [filled, filled, Node.skeleton, Node.skeleton, List.map_map, List.map_map]
    refine congrArg (Node.element name _) ?_
    by_cases hs : isSlot nonce cs = true
    · -- a slot has a marker, so it is not in raw text and its markup is read
      have hr := isRawText_of_isSlot hs hraw
      obtain ⟨t, rfl, -⟩ := isSlot_eq_true.1 hs
      rw [if_pos hs, if_pos hs, slotContent_text hr, slotContent_text hr]
      exact (alike_spliced hn h t).children
    · rw [if_neg hs, if_neg hs, filledAll_eq_map, filledAll_eq_map]
      refine Node.skeletonAll_congr cs (fun c _ => ?_) fun c hc => ih c hc (hcs c hc)
      rw [isText_filled, isText_filled]
  | text t => rfl
  | comment t => rfl

theorem each_rawClosed_filled_of_rawUnmarked (n : Node) (hs : n.Each Node.Sound) (hc : n.Each Node.RawClosed)
    (hu : n.Each (Node.RawUnmarked nonce)) : (filled nonce values n).Each Node.RawClosed := by
  induction n with
  | element name as cs ih =>
    obtain ⟨hfit, hscs⟩ := Node.each_element.1 hs
    obtain ⟨hraw, hccs⟩ := Node.each_element.1 hc
    obtain ⟨hun, hucs⟩ := Node.each_element.1 hu
    rw [filled]
    by_cases hslot : isSlot nonce cs = true
    · have hr := isRawText_of_isSlot hslot hun
      obtain ⟨t, rfl, -⟩ := isSlot_eq_true.1 hslot
      rw [if_pos hslot, slotContent_text hr]
      refine Node.each_element.2 ⟨fun h => absurd (hr.symm.trans h) Bool.false_ne_true, fun c hc m hm => ?_⟩
      exact (each_parsed_children_parse _ c hc m hm).rawClosed
    · rw [if_neg hslot]
      refine Node.each_element.2 ⟨fun hr => ?_, fun c hc => ?_⟩
      · rw [filledAll_of_isRawText hfit hr (by simpa using hslot)]
        exact hraw hr
      · rw [filledAll_eq_map] at hc
        obtain ⟨d, hd, rfl⟩ := List.mem_map.1 hc
        exact ih d hd (hscs d hd) (hccs d hd) (hucs d hd)
  | text t => exact Node.each_text.2 trivial
  | comment t => exact Node.each_comment.2 trivial

/-- **Like values render a template as like markup.** -/
theorem render_alike {segments : List Text} (hn : Marker.IsNonce nonce) (hv : values ≠ [])
    (h : List.Forall₂ Interpolation.Alike values values') (hu : (tree nonce segments).Each (Node.RawUnmarked nonce)) :
    TwoRuns (fun m m' => Text.Alike m.content m'.content) (render nonce values segments)
      (render nonce values' segments) := by
  refine twoRuns_render hv h.length_eq (isTextAt_congr (fun _ _ => Interpolation.Alike.isSome_trusted?) h) fun _ => ?_
  have hs : (tree nonce segments).Each Node.Sound := each_sound_tree segments
  have hclosed : ∀ vs, Text.Closed (filled nonce vs (tree nonce segments)).inner
      ((filled nonce vs (tree nonce segments)).children.map Node.asRead) := fun vs =>
    Node.closed_inner (each_sound_filled _ hs) (each_rawClosed_filled_of_rawUnmarked _ hs
      (fun m hm => (Node.each_parsed_parse (join nonce 0 segments) m hm).rawClosed) hu)
  refine ⟨_, _, hclosed values, hclosed values', ?_⟩
  rw [Node.skeletonAll_map_asRead, Node.skeletonAll_map_asRead]
  exact (Node.element.inj (skeleton_filled hn h _ hu)).2.2

namespace Nested

mutual

/-- Expressions built alike from templates and escaped texts, which may hold other texts. -/
inductive Varies : Nested → Nested → Prop where
  | escape (s t : Text) : Varies (.value (.trusted (Trusted.escape s))) (.value (.trusted (Trusted.escape t)))
  | template {nonce : Text} {segments : List Text} {as bs : List Nested} (h : VariesAll as bs) :
      Varies (.template nonce segments as) (.template nonce segments bs)

/-- Arguments of templates: texts, and expressions built alike. -/
inductive VariesAll : List Nested → List Nested → Prop where
  | nil : VariesAll [] []
  | text {s t : Text} {as bs : List Nested} (h : VariesAll as bs) :
      VariesAll (.value (.text s) :: as) (.value (.text t) :: bs)
  | markup {a b : Nested} {as bs : List Nested} (hab : Varies a b) (h : VariesAll as bs) :
      VariesAll (a :: as) (b :: bs)

end

/-- What a template must be like to be filled with any values. -/
structure Guard (nonce : Text) (segments : List Text) (arguments : List Nested) : Prop where
  isNonce : Marker.IsNonce nonce
  /-- Without arguments the one segment is markup as it is written. -/
  literal : arguments = [] → ∀ s, segments = [s] → (Node.parse s).inner = s
  rawUnmarked : arguments ≠ [] → (tree nonce segments).Each (Node.RawUnmarked nonce)

mutual

/-- All templates of an expression are guarded. -/
def Guarded : Nested → Prop
  | value _ => True
  | template nonce segments arguments => Guard nonce segments arguments ∧ GuardedAll arguments

def GuardedAll : List Nested → Prop
  | [] => True
  | a :: as => Guarded a ∧ GuardedAll as

end

theorem alike_literal {s : Text} (h : (Node.parse s).inner = s) : Text.Alike s s := by
  have hparsed := Node.each_parsed_parse s
  have hclosed : Text.Closed (Node.parse s).inner ((Node.parse s).children.map Node.asRead) :=
    Node.closed_inner (fun m hm => (hparsed m hm).sound) fun m hm => (hparsed m hm).rawClosed
  rw [h] at hclosed
  exact hclosed.alike

theorem twoRuns_template {nonce : Text} {segments : List Text} {as : List Nested} {vs ws : List Interpolation}
    (hg : Guard nonce segments as) (hl : vs.length = as.length) (h : List.Forall₂ Interpolation.Alike vs ws) :
    TwoRuns (fun m m' => Text.Alike m.content m'.content) (render nonce vs segments) (render nonce ws segments) := by
  by_cases hv : vs = []
  · subst hv
    obtain rfl := List.forall₂_nil_left_iff.1 h
    by_cases hs : segments.length = 1
    · obtain ⟨s, rfl⟩ := List.length_eq_one_iff.1 hs
      refine .done ?_
      rw [List.flatten_singleton]
      exact alike_literal (hg.literal (List.length_eq_zero_iff.1 hl.symm) s rfl)
    · have hr : render nonce [] segments = .error (.templateShape segments.length 0) := if_pos hs
      rw [hr]
      exact .refused _
  · refine render_alike hg.isNonce hv h (hg.rawUnmarked ?_)
    rintro rfl
    exact hv (List.length_eq_zero_iff.1 hl)

/-- Trusted markup that is read alike. -/
def AlikeMarkup (v w : Interpolation) : Prop :=
  ∃ m m', v = .trusted m ∧ w = .trusted m' ∧ Text.Alike m.content m'.content

mutual

theorem twoRuns_eval {e e' : Nested} (h : Varies e e') (hg : e.Guarded) : TwoRuns AlikeMarkup e.eval e'.eval := by
  cases h with
  | escape s t => exact .done ⟨_, _, rfl, rfl, Text.alike_escape s t⟩
  | template h =>
    refine (twoRuns_evalAll h hg.2).bind fun vs ws hvs => ?_
    refine (twoRuns_template hg.1 hvs.1 hvs.2).bind fun m m' hm => ?_
    exact .done ⟨m, m', rfl, rfl, hm⟩

theorem twoRuns_evalAll {as bs : List Nested} (h : VariesAll as bs) (hg : GuardedAll as) :
    TwoRuns (fun vs ws => vs.length = as.length ∧ List.Forall₂ Interpolation.Alike vs ws)
      (evalAll as) (evalAll bs) := by
  cases h with
  | nil => exact .done ⟨rfl, .nil⟩
  | @text s t as bs h =>
    refine TwoRuns.bind (R := fun v w => v = .text s ∧ w = .text t) (.done ⟨rfl, rfl⟩) fun v w ⟨hv, hw⟩ => ?_
    refine (twoRuns_evalAll h hg.2).bind fun vs ws hvs => ?_
    subst hv hw
    exact .done ⟨congrArg Nat.succ hvs.1, .cons (.text s t) hvs.2⟩
  | markup hab h =>
    refine (twoRuns_eval hab hg.1).bind fun v w ⟨m, m', hv, hw, hm⟩ => ?_
    refine (twoRuns_evalAll h hg.2).bind fun vs ws hvs => ?_
    subst hv hw
    exact .done ⟨congrArg Nat.succ hvs.1, .cons (.trusted hm) hvs.2⟩

end

/-- **No text creates, removes or changes an element, the name of an attribute or a comment**, however deep the
expression that it is put into: for other texts the expression is refused for the same reason, or rendered with the same
skeleton. -/
theorem eval_skeleton {e e' : Nested} (h : Varies e e') (hg : e.Guarded) :
    TwoRuns (fun v w => ∃ m m', v = .trusted m ∧ w = .trusted m' ∧
      (Node.parse m.content).skeleton = (Node.parse m'.content).skeleton) e.eval e'.eval :=
  (twoRuns_eval h hg).imp fun _ _ ⟨m, m', hv, hw, hm⟩ => ⟨m, m', hv, hw, hm.skeleton⟩

theorem eval_skeleton_twice :
    (Node.parse "<p title=\"x\"><i>y</i></p>".toList).skeleton =
      (Node.parse "<p title=\"&quot;&gt;\"><i>&lt;/i&gt;</i></p>".toList).skeleton := by
  have h : Varies
      (.template ['a'] ["<p title=".toList, ">".toList, "</p>".toList] [.value (.text ['x']),
        .template ['b'] ["<i>".toList, "</i>".toList] [.value (.trusted (Trusted.escape ['y']))]])
      (.template ['a'] ["<p title=".toList, ">".toList, "</p>".toList] [.value (.text "\">".toList),
        .template ['b'] ["<i>".toList, "</i>".toList] [.value (.trusted (Trusted.escape "</i>".toList))]]) :=
    .template (.text (.markup (.template (.markup (.escape _ _) .nil)) .nil))
  have hruns := eval_skeleton h
    ⟨⟨by decide, (fun h => nomatch h), fun _ => by decide +kernel⟩, trivial,
      ⟨⟨by decide, (fun h => nomatch h), fun _ => by decide +kernel⟩, trivial, trivial⟩, trivial⟩
  have he : eval (.template ['a'] ["<p title=".toList, ">".toList, "</p>".toList] [.value (.text ['x']),
      .template ['b'] ["<i>".toList, "</i>".toList] [.value (.trusted (Trusted.escape ['y']))]]) =
      .ok (.trusted ⟨"<p title=\"x\"><i>y</i></p>".toList⟩) := by decide +kernel
  have he' : eval (.template ['a'] ["<p title=".toList, ">".toList, "</p>".toList] [.value (.text "\">".toList),
      .template ['b'] ["<i>".toList, "</i>".toList] [.value (.trusted (Trusted.escape "</i>".toList))]]) =
      .ok (.trusted ⟨"<p title=\"&quot;&gt;\"><i>&lt;/i&gt;</i></p>".toList⟩) := by decide +kernel
  rw [he, he'] at hruns
  cases hruns with
  | done hr =>
    obtain ⟨m, m', hm, hm', hs⟩ := hr
    obtain rfl := Interpolation.trusted.inj hm
    obtain rfl := Interpolation.trusted.inj hm'
    exact hs

end Nested
end Template
end SafeMarkup
