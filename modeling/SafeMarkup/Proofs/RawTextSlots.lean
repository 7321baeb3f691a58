import SafeMarkup.Proofs.Places
import SafeMarkup.Proofs.Interference
/-!
# Trusted markup in raw text

A raw-text element takes the trusted markup in its slot as it is.  What is written there cannot leave the element unless
it spells an end tag of it, alone or together with the text around it: the rendered template is read with the element in
its place, which holds one text, and the nodes around it are those of any other markup in the slot
(`Template.parse_render_rawText`).  Raw text that stands earlier must not be left either
(`Template.rawText_can_be_left`).
-/
namespace SafeMarkup
namespace Template

section

variable (nonce : Text) (values : List Interpolation)

/-- A parent of a place in a filled tree. -/
def filledFrame (f : Frame) : Frame :=
  ⟨⟨f.name, f.attributes.map (fillAttribute nonce values), f.children.map (filled nonce values)⟩,
    f.after.map (filled nonce values)⟩

mutual

/-- The texts of a tree in which markers are replaced. -/
def replacedTexts : Node → List Text
  | .element name as cs => as.filterMap (·.value) ++
    if isSlot nonce cs then [Node.writeAll (Element.isRawText name) cs] else replacedTextsAll cs
  | .text t => [t]
  | .comment _ => []

def replacedTextsAll : List Node → List Text
  | [] => []
  | n :: ns => replacedTexts n ++ replacedTextsAll ns

end

/-- No marker of a number is replaced in the tree. -/
def Lacks (i : Nat) (n : Node) : Prop := ∀ t ∈ replacedTexts nonce n, i ∉ Marker.indexes nonce t

instance (i : Nat) (n : Node) : Decidable (Lacks nonce i n) :=
  inferInstanceAs (Decidable (∀ t ∈ replacedTexts nonce n, i ∉ Marker.indexes nonce t))

end

variable {nonce : Text} {values values' : List Interpolation} {i : Nat}

/-! ## Filling around a place -/

/-- What holds more than a text is no slot. -/
theorem isSlot_around (f : Frame) {n : Node} (hn : n.isText = false) :
    isSlot nonce (f.children.reverse ++ n :: f.after) = false := by
  refine Bool.eq_false_iff.2 fun hs => ?_
  obtain ⟨t, hcs, -⟩ := isSlot_eq_true.1 hs
  have hmem : n ∈ f.children.reverse ++ n :: f.after := List.mem_append_right _ (List.mem_cons_self ..)
  rw [hcs] at hmem
  obtain rfl := List.mem_singleton.1 hmem
  cases hn

theorem filled_plug : ∀ (place : List Frame) {n : Node}, n.isText = false →
    filled nonce values (Node.plug place n) =
      Node.plug (place.map (filledFrame nonce values)) (filled nonce values n)
  | [], _, _ => rfl
  | f :: place, n, hn => by
    have haround : filled nonce values (f.around n) = (filledFrame nonce values f).around (filled nonce values n) := by
      rw [Frame.around, filled, if_neg (by simp [isSlot_around f hn]), filledAll_eq_map, List.map_append,
        List.map_reverse]
      rfl
    refine (filled_plug place (n := f.around n) rfl).trans ?_
    rw [haround]
    rfl

/-! ## Filling with another value -/

theorem replacedTextsAll_eq_flatMap (ns : List Node) :
    replacedTextsAll nonce ns = ns.flatMap (replacedTexts nonce) := by
  induction ns with
  | nil => rfl
  | cons n ns ih => rw [replacedTextsAll, ih, List.flatMap_cons]

theorem lacks_element {name : Text} {as : List (Attribute Text)} {cs : List Node} :
    Lacks nonce i (.element name as cs) ↔ (∀ t ∈ as.filterMap (·.value), i ∉ Marker.indexes nonce t) ∧
      if isSlot nonce cs then i ∉ Marker.indexes nonce (Node.writeAll (Element.isRawText name) cs)
      else ∀ c ∈ cs, Lacks nonce i c := by
  rw [Lacks, replacedTexts, List.forall_mem_append]
  refine and_congr_right fun _ => ?_
  split
  · exact List.forall_mem_singleton
  · rw [replacedTextsAll_eq_flatMap]
    exact List.forall_mem_flatMap

theorem lacks_around {f : Frame} {n : Node} (hn : n.isText = false) : Lacks nonce i (f.around n) ↔
    (∀ t ∈ f.attributes.filterMap (·.value), i ∉ Marker.indexes nonce t) ∧
      ∀ c ∈ f.children.reverse ++ n :: f.after, Lacks nonce i c := by
  rw [Frame.around, lacks_element, if_neg (by simp [isSlot_around f hn])]

theorem lacks_of_plug : ∀ (place : List Frame) {n : Node}, n.isText = false → Lacks nonce i (Node.plug place n) →
    Lacks nonce i n
  | [], _, _, h => h
  | f :: place, n, hn, h => by
    have haround : Lacks nonce i (f.around n) := lacks_of_plug place rfl h
    exact ((lacks_around hn).1 haround).2 n (List.mem_append_right _ (List.mem_cons_self ..))

theorem lacks_frame : ∀ {place : List Frame} {n : Node}, n.isText = false → Lacks nonce i (Node.plug place n) →
    ∀ f ∈ place, (∀ t ∈ f.attributes.filterMap (·.value), i ∉ Marker.indexes nonce t) ∧
      (∀ c ∈ f.children, Lacks nonce i c) ∧ ∀ c ∈ f.after, Lacks nonce i c
  | g :: place, n, hn, h, f, hf => by
    rcases List.mem_cons.1 hf with rfl | hf
    · obtain ⟨has, hcs⟩ := (lacks_around hn).1 (lacks_of_plug place rfl h)
      exact ⟨has, fun c hc => hcs c (List.mem_append_left _ (List.mem_reverse.2 hc)),
        fun c hc => hcs c (List.mem_append_right _ (List.mem_cons_of_mem _ hc))⟩
    · exact lacks_frame (n := g.around n) rfl h f hf

section

variable (hv : ∀ j, j ≠ i → values[j]? = values'[j]?)

include hv

theorem fill_of_notMem {t : Text} (ht : i ∉ Marker.indexes nonce t) : fill nonce values t = fill nonce values' t :=
  fill_congr fun j hj => by rw [hv j fun hji => ht (hji ▸ hj)]

theorem spliced_of_notMem {t : Text} (ht : i ∉ Marker.indexes nonce t) :
    spliced nonce values t = spliced nonce values' t :=
  replace_congr fun j hj => by rw [markupAt, markupAt, hv j fun hji => ht (hji ▸ hj)]

theorem map_fillAttribute_congr {as : List (Attribute Text)}
    (h : ∀ t ∈ as.filterMap (·.value), i ∉ Marker.indexes nonce t) :
    as.map (fillAttribute nonce values) = as.map (fillAttribute nonce values') := by
  refine List.map_congr_left fun a ha => ?_
  obtain ⟨name, value⟩ := a
  cases value with
  | none => rfl
  | some t =>
    have ht : t ∈ as.filterMap (·.value) := List.mem_filterMap.2 ⟨_, ha, rfl⟩
    exact congrArg (fun s => Attribute.mk name (some s)) (fill_of_notMem hv (h t ht))

/-- A tree without the marker of a value does not depend on that value. -/
theorem filled_congr (n : Node) (h : Lacks nonce i n) : filled nonce values n = filled nonce values' n := by
  induction n with
  | element name as cs ih =>
    obtain ⟨has, hcs⟩ := lacks_element.1 h
    rw [filled, filled, map_fillAttribute_congr hv has, slotContent, slotContent, filledAll_eq_map, filledAll_eq_map]
    split
    · rename_i hs
      rw [if_pos hs] at hcs
      rw [spliced_of_notMem hv hcs]
    · rename_i hs
      rw [if_neg hs] at hcs
      rw [List.map_congr_left fun c hc => ih c hc (hcs c hc)]
  | text t => exact congrArg Node.text (fill_of_notMem hv (h t (List.mem_singleton_self t)))
  | comment t => rfl

theorem filledFrame_congr {place : List Frame} {n : Node} (hn : n.isText = false)
    (h : Lacks nonce i (Node.plug place n)) :
    place.map (filledFrame nonce values) = place.map (filledFrame nonce values') := by
  refine List.map_congr_left fun f hf => ?_
  obtain ⟨has, hbefore, hafter⟩ := lacks_frame hn h f hf
  rw [filledFrame, filledFrame, map_fillAttribute_congr hv has,
    List.map_congr_left fun c hc => filled_congr hv c (hbefore c hc),
    List.map_congr_left fun c hc => filled_congr hv c (hafter c hc)]

end

/-- Other trusted markup is no more of a text. -/
theorem isTextAt_set {c : Trusted} (h : values[i]? = some (.trusted c)) (u : Trusted) :
    isTextAt values = isTextAt (values.set i (.trusted u)) := by
  funext j
  obtain ⟨hi, -⟩ := List.getElem?_eq_some_iff.1 h
  by_cases hj : j = i
  · subst hj
    rw [isTextAt, isTextAt, h, List.getElem?_set_self hi]
  · rw [isTextAt, isTextAt, List.getElem?_set_ne (Ne.symm hj)]

/-! ## Raw text in its place -/

theorem filled_rawText {name t : Text} (hr : Element.isRawText name = true) (ht : Marker.isIn nonce t = true)
    (as : List (Attribute Text)) : filled nonce values (.element name as [.text t]) =
      .element name (as.map (fillAttribute nonce values)) [.text (spliced nonce values t)] := by
  have hslot : isSlot nonce [.text t] = true := ht
  have hwritten : Node.writeAll true [.text t] = t := List.append_nil t
  rw [filled, if_pos hslot, slotContent, content_of_isRawText hr, hr, hwritten]

/-- An element that can hold one text can hold any other. -/
theorem Fits.text {name s : Text} {as : List (Attribute Text)} (h : Element.Fits name as [.text s]) (t : Text) :
    Element.Fits name as [.text t] where
  isName := h.isName
  attributeNames := h.attributeNames
  distinct := h.distinct
  void hv := nomatch h.void hv
  rawText _ := .inr ⟨t, rfl⟩
  apart := .singleton _

theorem each_rawClosed_rawText {name t : Text} {as : List (Attribute Text)} (ht : ¬Element.HasEndTag name t) :
    (Node.element name as [.text t]).Each Node.RawClosed := by
  refine Node.each_element.2 ⟨fun _ s hs => ?_, fun n hn => ?_⟩
  · obtain rfl := Node.text.inj (List.mem_singleton.1 hs)
    exact ht
  · obtain rfl := List.mem_singleton.1 hn
    exact Node.each_text.2 trivial

theorem each_sound_text {name t : Text} {as : List (Attribute Text)} (h : Element.Fits name as [.text t]) :
    (Node.element name as [.text t]).Each Node.Sound := by
  refine Node.each_element.2 ⟨h, fun n hn => ?_⟩
  obtain rfl := List.mem_singleton.1 hn
  exact Node.each_text.2 trivial

theorem filled_tree {segments : List Text} {place : List Frame} {name t : Text} {as : List (Attribute Text)}
    (htree : tree nonce segments = Node.plug place (.element name as [.text t])) (hr : Element.isRawText name = true)
    (ht : Marker.isIn nonce t = true) (values : List Interpolation) :
    filled nonce values (tree nonce segments) = Node.plug (place.map (filledFrame nonce values))
      (.element name (as.map (fillAttribute nonce values)) [.text (spliced nonce values t)]) := by
  rw [htree, filled_plug place rfl, filled_rawText hr ht]

/-- The raw text in a slot is read in its place, whatever it is, if it spells no end tag. -/
theorem exists_parse_rawText {segments : List Text} {place : List Frame} {name t : Text} {as : List (Attribute Text)}
    (htree : tree nonce segments = Node.plug place (.element name as [.text t])) (hr : Element.isRawText name = true)
    (ht : Marker.isIn nonce t = true) (hbefore : ClosedBefore (place.map (filledFrame nonce values))) :
    ∃ d : List Frame, d.map Frame.toOpenElement = place.map (fun f => (filledFrame nonce values f).shown) ∧
      ∀ s, ¬Element.HasEndTag name s → Node.parse (Node.plug (place.map (filledFrame nonce values))
        (.element name (as.map (fillAttribute nonce values)) [.text s])).inner =
          Node.plug d (.element name (as.map (shownAttribute nonce values)) (shownText s)) := by
  have hfilled := filled_tree htree hr ht values
  obtain ⟨cs, hroot⟩ : ∃ cs, filled nonce values (tree nonce segments) = .element Element.root [] cs := ⟨_, rfl⟩
  have hsound : (filled nonce values (tree nonce segments)).Each Node.Sound :=
    each_sound_filled _ (each_sound_tree segments)
  rw [hfilled] at hroot hsound
  have hplace : place.map (filledFrame nonce values) ≠ [] := by
    intro hnil
    rw [hnil] at hroot
    obtain ⟨rfl, -⟩ := Node.element.inj hroot
    revert hr
    decide
  obtain ⟨d, hd, hparse⟩ := Node.exists_parse_plug hplace rfl hroot hsound hbefore
  refine ⟨d, hd.trans (List.map_map ..), fun s hs => ?_⟩
  have hfit := (Node.each_of_plug _ hsound).self
  rw [hparse _ rfl (each_sound_text (Fits.text hfit s)) (each_rawClosed_rawText hs), Node.asRead_element,
    valued_fillAttributes, asReadAll_text]
  exact congrArg (fun cs => Node.plug d (.element name _ cs)) (List.append_nil _)

/-- **Trusted markup stays in the raw text it is put in**, if no end tag of the element is spelled there and raw text
before it is not left either: the element is read in its place, with all that is read before it, and holds one text.
Other markup changes that text and nothing else, if its marker stands nowhere else and it spells no end tag either. -/
theorem parse_render_rawText {segments : List Text} {m : Trusted} {place : List Frame} {name t : Text}
    {as : List (Attribute Text)} {c : Trusted} (h : render nonce values segments = .ok m)
    (htree : tree nonce segments = Node.plug place (.element name as [.text t]))
    (hr : Element.isRawText name = true) (hi : i ∈ Marker.indexes nonce t) (hv : values[i]? = some (.trusted c))
    (hbefore : ClosedBefore (place.map (filledFrame nonce values)))
    (hend : ¬Element.HasEndTag name (spliced nonce values t)) :
    ∃ d : List Frame, d.map Frame.toOpenElement = place.map (fun f => (filledFrame nonce values f).shown) ∧
      Node.parse m.content = Node.plug d
        (.element name (as.map (shownAttribute nonce values)) (shownText (spliced nonce values t))) ∧
      ∀ u : Trusted, Lacks nonce i (Node.plug place (.element name as [])) →
        ¬Element.HasEndTag name (spliced nonce (values.set i (.trusted u)) t) →
        ∃ m', render nonce (values.set i (.trusted u)) segments = .ok m' ∧
          Node.parse m'.content = Node.plug d (.element name (as.map (shownAttribute nonce values))
            (shownText (spliced nonce (values.set i (.trusted u)) t))) := by
  have ht : Marker.isIn nonce t = true := by
    rw [Marker.isIn, Bool.not_eq_true', List.isEmpty_eq_false_iff]
    exact List.ne_nil_of_mem hi
  have hne : values ≠ [] := by
    rintro rfl
    cases hv
  have hlength := length_of_render_eq_ok h
  rw [render_eq hne hlength] at h
  obtain ⟨hrefusals, rfl⟩ := refusing_eq_ok.1 h
  obtain ⟨d, hd, hread⟩ := exists_parse_rawText htree hr ht hbefore
  refine ⟨d, hd, ?_, fun u hlacks hend' => ?_⟩
  · rw [filled_tree htree hr ht]
    exact hread _ hend
  · have hne' : values.set i (.trusted u) ≠ [] := fun hnil => hne ((List.set_eq_nil_iff ..).1 hnil)
    have hrender : render nonce (values.set i (.trusted u)) segments = _ :=
      render_eq hne' (hlength.trans (by rw [List.length_set]))
    rw [← refusals_congr (isTextAt_set hv u), hrefusals] at hrender
    refine ⟨_, hrender, ?_⟩
    -- around the slot the tree is filled as before
    have hagree : ∀ j, j ≠ i → values[j]? = (values.set i (.trusted u))[j]? := fun j hj =>
      (List.getElem?_set_ne hj.symm).symm
    have has := (lacks_element.1 (lacks_of_plug place rfl hlacks)).1
    rw [filled_tree htree hr ht, ← filledFrame_congr hagree rfl hlacks, ← map_fillAttribute_congr hagree has]
    exact hread _ hend'

theorem parse_render_rawText_less :
    ∃ d m, d.map Frame.toOpenElement =
        [⟨['p'], [], [.element "style".toList [] [.text ['s']]]⟩, ⟨Element.root, [], []⟩] ∧
      Node.parse "<p><style>s</style><script>x<y</script>t</p>".toList =
        Node.plug d (.element "script".toList [] [.text "x<y".toList]) ∧
      render ['a'] [.trusted ⟨[]⟩] ["<p><style>s</style><script>".toList, "</script>t</p>".toList] = .ok m ∧
      Node.parse m.content = Node.plug d (.element "script".toList [] []) := by
  have hrender : render ['a'] [.trusted ⟨"x<y".toList⟩]
      ["<p><style>s</style><script>".toList, "</script>t</p>".toList] =
        .ok ⟨"<p><style>s</style><script>x<y</script>t</p>".toList⟩ := by decide +kernel
  have htree : tree ['a'] ["<p><style>s</style><script>".toList, "</script>t</p>".toList] =
      Node.plug [⟨⟨['p'], [], [.element "style".toList [] [.text ['s']]]⟩, [.text ['t']]⟩, ⟨⟨Element.root, [], []⟩, []⟩]
        (.element "script".toList [] [.text "$$$a:0$$$".toList]) := by decide +kernel
  obtain ⟨d, hd, hparse, hother⟩ := parse_render_rawText (i := 0) hrender htree (by decide) (by decide +kernel) rfl
    (by unfold ClosedBefore; decide +kernel) (by decide +kernel)
  obtain ⟨m, hm, hempty⟩ := hother ⟨[]⟩ (by decide +kernel) (by decide +kernel)
  have hbefore : (Node.asReadAll [filled ['a'] [.trusted ⟨"x<y".toList⟩]
      (.element "style".toList [] [.text ['s']])]).reverse = [.element "style".toList [] [.text ['s']]] := by
    decide +kernel
  have hless : spliced ['a'] [.trusted ⟨"x<y".toList⟩] "$$$a:0$$$".toList = "x<y".toList := by decide +kernel
  have hnone : spliced ['a'] [.trusted ⟨[]⟩] "$$$a:0$$$".toList = [] := by decide +kernel
  rw [hless] at hparse
  rw [List.set_cons_zero, hnone] at hempty
  refine ⟨d, m, hd.trans ?_, hparse, hm, hempty⟩
  exact congrArg (fun cs => [OpenElement.mk ['p'] [] cs, ⟨Element.root, [], []⟩]) hbefore

/-- Raw text can be left, and what follows it be lost, where it spells an end tag: in the markup of its slot, before it,
or by the text around the slot once there is nothing between.  A marker that was written by hand shows the markup
elsewhere. -/
theorem rawText_can_be_left :
    let el (name : String) (cs : List Node) : Node := .element name.toList [] cs
    let text (t : String) : Node := .text t.toList
    let shown (values : List String) (segments : List String) : Except Refusal Node :=
      (render ['a'] (values.map fun v => .trusted ⟨v.toList⟩) (segments.map String.toList)).map (Node.parse ·.content)
    let template (segments : List String) : Node := tree ['a'] (segments.map String.toList)
    (template ["<p><script>", "</script></p>"] = el "body" [el "p" [el "script" [text "$$$a:0$$$"]]] ∧
      shown ["</script><b>"] ["<p><script>", "</script></p>"] =
        .ok (el "body" [el "p" [el "script" [], el "b" []]]) ∧
      shown [""] ["<p><script>", "</script></p>"] = .ok (el "body" [el "p" [el "script" []]])) ∧
    (template ["<script>", "</script><style>", "</style>"] =
        el "body" [el "script" [text "$$$a:0$$$"], el "style" [text "$$$a:1$$$"]] ∧
      shown ["</script><!--", "x"] ["<script>", "</script><style>", "</style>"] =
        .ok (el "body" [el "script" [], .comment "</script><style>x</style>".toList])) ∧
    (template ["<script></scr", "ipt><b></script>"] = el "body" [el "script" [text "</scr$$$a:0$$$ipt><b>"]] ∧
      shown ["x"] ["<script></scr", "ipt><b></script>"] = .ok (el "body" [el "script" [text "</scrxipt><b>"]]) ∧
      shown [""] ["<script></scr", "ipt><b></script>"] = .ok (el "body" [el "script" [], el "b" []])) ∧
    (template ["<script>", "</script><p title=$$$a:0$$$></p>"] = el "body" [el "script" [text "$$$a:0$$$"],
        .element ['p'] [⟨"title".toList, some "$$$a:0$$$".toList⟩] []] ∧
      shown ["x"] ["<script>", "</script><p title=$$$a:0$$$></p>"] = .ok (el "body" [el "script" [text "x"],
        .element ['p'] [⟨"title".toList, some ['x']⟩] []]) ∧
      shown [""] ["<script>", "</script><p title=$$$a:0$$$></p>"] = .ok (el "body" [el "script" [],
        .element ['p'] [⟨"title".toList, some []⟩] []])) := by
  decide +kernel

end Template
end SafeMarkup
