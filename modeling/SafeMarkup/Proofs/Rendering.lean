import SafeMarkup.Proofs.Resolution
/-!
# Rendered templates read back

A rendered template is read as the tree that resolving decided on (`parse_render`): no value changes where a tag, a
comment or a text begins or ends.  `Template.Shows` says what that tree is in the words of the template, one piece of
its tree after the other.
-/
namespace SafeMarkup
namespace Template

section

variable (nonce : Text) (values : List Interpolation)

/-- An attribute of a template as it is read once the template is rendered. -/
def shownAttribute (a : Attribute Text) : Attribute Text := ⟨a.name, some (fill nonce values (a.value.getD []))⟩

/-- What a text is read as: nothing if it is empty. -/
def shownText (t : Text) : List Node := if t.isEmpty then [] else [.text t]

/-- What the nodes of a template are read as once they are rendered: texts and values are filled, the markup in a slot
is read for itself, and all other things are what they were. -/
inductive Shows : List Node → List Node → Prop where
  | nil : Shows [] []
  | element {name : Text} {as : List (Attribute Text)} {cs ds ns ms : List Node} (hs : isSlot nonce cs = false)
      (hc : Shows cs ds) (h : Shows ns ms) :
      Shows (.element name as cs :: ns) (.element name (as.map (shownAttribute nonce values)) ds :: ms)
  | slot {name : Text} {as : List (Attribute Text)} {cs ns ms : List Node} (hs : isSlot nonce cs = true)
      (h : Shows ns ms) :
      Shows (.element name as cs :: ns) (.element name (as.map (shownAttribute nonce values))
        (Node.asReadAll (slotContent nonce values name cs)) :: ms)
  | text {t : Text} {ns ms : List Node} (h : Shows ns ms) :
      Shows (.text t :: ns) (shownText (fill nonce values t) ++ ms)
  | comment {t : Text} {ns ms : List Node} (h : Shows ns ms) : Shows (.comment t :: ns) (.comment t :: ms)

end

variable {nonce : Text} {values : List Interpolation}

theorem fill_nil : fill nonce values [] = [] := by rw [fill, Marker.replace, Marker.pieces_nil, List.flatMap_nil]

theorem valued_fillAttribute (a : Attribute Text) :
    (fillAttribute nonce values a).valued = shownAttribute nonce values a := by
  obtain ⟨name, value⟩ := a
  cases value with
  | none => simp [fillAttribute, Attribute.valued, shownAttribute, fill_nil]
  | some v => rfl

theorem valued_fillAttributes (as : List (Attribute Text)) :
    (as.map (fillAttribute nonce values)).map Attribute.valued = as.map (shownAttribute nonce values) := by
  rw [List.map_map]
  exact List.map_congr_left fun a _ => valued_fillAttribute a

theorem asReadAll_text (t : Text) (ns : List Node) :
    Node.asReadAll (.text t :: ns) = shownText t ++ Node.asReadAll ns := by
  rw [Node.asReadAll_cons]
  cases t <;> rfl

theorem asReadAll_element (name : Text) (as : List (Attribute Text)) (cs ns : List Node) :
    Node.asReadAll (.element name as cs :: ns) =
      .element name (as.map Attribute.valued) (Node.asReadAll cs) :: Node.asReadAll ns := rfl

/-- **What a filled tree is read as is what the template shows.** -/
theorem shows_filledAll : ∀ ns : List Node, Shows nonce values ns (Node.asReadAll (filledAll nonce values ns))
  | [] => .nil
  | .text t :: ns => by
    rw [filledAll, filled, asReadAll_text]
    exact .text (shows_filledAll ns)
  | .comment t :: ns => .comment (shows_filledAll ns)
  | .element name as cs :: ns => by
    rw [filledAll, filled, asReadAll_element, valued_fillAttributes]
    by_cases hs : isSlot nonce cs = true
    · rw [if_pos hs]
      exact .slot hs (shows_filledAll ns)
    · rw [if_neg hs]
      exact .element (by simpa using hs) (shows_filledAll cs) (shows_filledAll ns)

theorem each_sound_tree (segments : List Text) : (tree nonce segments).Each Node.Sound :=
  fun m hm => (Node.each_parsed_parse (join nonce 0 segments) m hm).sound

theorem parse_inner_filled {segments : List Text}
    (hc : (filled nonce values (tree nonce segments)).Each Node.RawClosed) :
    Node.parse (filled nonce values (tree nonce segments)).inner =
      (filled nonce values (tree nonce segments)).asRead := by
  have hs : (filled nonce values (tree nonce segments)).Each Node.Sound :=
    each_sound_filled _ (each_sound_tree segments)
  obtain ⟨cs, h⟩ : ∃ cs, filled nonce values (tree nonce segments) = .element Element.root [] cs := ⟨_, rfl⟩
  rw [h] at hs hc ⊢
  exact Node.parse_inner hs hc

theorem length_of_render_eq_ok {segments : List Text} {m : Trusted} (h : render nonce values segments = .ok m) :
    segments.length = values.length + 1 := by
  unfold render at h
  split at h
  · cases h
  · rename_i hs
    exact Decidable.not_not.1 hs

/-- **A rendered template is read as the tree that was resolved**, as long as no raw text of that tree holds an end tag
of its element, and what was read is written as it was rendered. -/
theorem parse_render {segments : List Text} {m : Trusted} (hv : values ≠ [])
    (h : render nonce values segments = .ok m) :
    ∃ r, resolve nonce values (tree nonce segments) = .ok r ∧ (r.Each Node.RawClosed →
      Node.parse m.content = r.valued.withoutEmpty ∧
      (Node.parse m.content).inner = m.content ∧
      Shows nonce values [tree nonce segments] [Node.parse m.content]) := by
  rw [render_eq hv (length_of_render_eq_ok h)] at h
  obtain ⟨hr, rfl⟩ := refusing_eq_ok.1 h
  refine ⟨filled nonce values (tree nonce segments), by rw [resolve_eq, hr]; rfl, fun hc => ?_⟩
  have hparse := parse_inner_filled hc
  refine ⟨hparse, ?_, ?_⟩
  · exact (congrArg Node.inner hparse).trans (Node.inner_asRead _)
  · have hshows : Shows nonce values [tree nonce segments] _ := shows_filledAll [tree nonce segments]
    rw [hparse]
    exact hshows

theorem parse_render_title :
    ∃ r, resolve ['a'] [.text "\"><b>".toList, .trusted ⟨"<i>".toList⟩]
        (tree ['a'] ["<p title=".toList, "><b>".toList, "</b>".toList]) = .ok r ∧ r.Each Node.RawClosed ∧
      Node.parse "<p title=\"&quot;&gt;&lt;b&gt;\"><b><i></i></b></p>".toList = r.valued.withoutEmpty := by
  have hrender : render ['a'] [.text "\"><b>".toList, .trusted ⟨"<i>".toList⟩]
      ["<p title=".toList, "><b>".toList, "</b>".toList] =
      .ok ⟨"<p title=\"&quot;&gt;&lt;b&gt;\"><b><i></i></b></p>".toList⟩ := by decide +kernel
  obtain ⟨r, hr, h⟩ := parse_render (by simp) hrender
  have hfilled := hr
  rw [resolve_eq] at hfilled
  have hc : r.Each Node.RawClosed := by
    obtain rfl := (refusing_eq_ok.1 hfilled).2
    decide +kernel
  exact ⟨r, hr, hc, (h hc).1⟩

end Template
end SafeMarkup
