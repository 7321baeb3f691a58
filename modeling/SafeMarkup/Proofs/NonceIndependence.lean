import SafeMarkup.Proofs.RenamedMarkup
import SafeMarkup.Proofs.Resolution
/-!
# The nonce is not seen

A template is read alike under two nonces, so it has the same slots, refuses the same values, and is filled with the
same ones; a marker that is replaced leaves nothing of its nonce.  Where no marker stays, the result does not depend on
the nonce (`Template.render_nonce_irrelevant`).
-/
namespace SafeMarkup

theorem map_eq_map_of_forall₂ {α β γ : Type} {R : α → β → Prop} {f : α → γ} {g : β → γ} {xs : List α} {ys : List β}
    (h : List.Forall₂ R xs ys) (hfg : ∀ x ∈ xs, ∀ y, R x y → f x = g y) : xs.map f = ys.map g := by
  induction h with
  | nil => rfl
  | @cons x y xs ys hxy _ ih =>
    obtain ⟨hx, hxs⟩ := List.forall_mem_cons.1 hfg
    rw [List.map_cons, List.map_cons, hx y hxy, ih hxs]

namespace Template

/-- No marker stays in the node: none is in the name of an attribute or in a comment. -/
def KeepsNoMarker (nonce : Text) : Node → Prop
  | .element _ as _ => ∀ a ∈ as, Marker.isIn nonce a.name = false
  | .text _ => True
  | .comment t => Marker.isIn nonce t = false

instance (nonce : Text) : DecidablePred (KeepsNoMarker nonce)
  | .element _ as _ => inferInstanceAs (Decidable (∀ a ∈ as, Marker.isIn nonce a.name = false))
  | .text _ => .isTrue trivial
  | .comment t => inferInstanceAs (Decidable (Marker.isIn nonce t = false))

variable {nonce nonce' : Text} {values : List Interpolation} {k : Nat}

/-- **Segments without `$`, written or decoded, are read as related trees.** -/
theorem related_tree (hn : Marker.IsNonce nonce) (hn' : Marker.IsNonce nonce') (hk : k ≤ Marker.indexLimit)
    {segments : List Text} (hl : segments.length ≤ k + 1)
    (hs : ∀ s ∈ segments, '$' ∉ s ∧ '$' ∉ Reference.decode s) :
    (tree nonce segments).Related (Marker.Renamed nonce nonce' k) (tree nonce' segments) := by
  have hjoin := @Marker.renamed_join nonce nonce' k segments 0 (fun s hm => (hs s hm).1) (by omega)
  exact hjoin.parse hn hn' hk (Marker.not_standsIn_join hn fun s hm => (hs s hm).2)

section

variable (hk : k ≤ Marker.indexLimit)

include hk

/-! ## The same slots, and the same refusals -/

theorem isSlot_eq_of_related {cs cs' : List Node}
    (h : List.Forall₂ (Node.Related (Marker.Renamed nonce nonce' k)) cs cs') : isSlot nonce cs = isSlot nonce' cs' := by
  cases h with
  | nil => rfl
  | cons hc hcs =>
    cases hcs with
    | cons _ _ => cases hc <;> rfl
    | nil =>
      cases hc with
      | text ht => exact ht.isIn_eq hk
      | element _ _ => rfl
      | comment _ => rfl

omit hk in
/-- What stands in a slot is written alike. -/
theorem renamed_written (hn : Marker.IsNonce nonce) (hn' : Marker.IsNonce nonce') {cs cs' : List Node} (raw : Bool)
    (hs : isSlot nonce cs = true) (h : List.Forall₂ (Node.Related (Marker.Renamed nonce nonce' k)) cs cs') :
    Marker.Renamed nonce nonce' k (Node.writeAll raw cs) (Node.writeAll raw cs') := by
  obtain ⟨t, rfl, -⟩ := isSlot_eq_true.1 hs
  cases h with
  | cons hc hcs =>
    cases hcs
    cases hc with
    | text ht =>
      simp only [Node.writeAll, Node.write, List.append_nil]
      split
      · exact ht
      · exact ht.escape hn hn'

/-- **The same values are refused under both nonces.** -/
theorem refusals_eq_of_related (hn : Marker.IsNonce nonce) (hn' : Marker.IsNonce nonce') (n : Node) {n' : Node}
    (h : n.Related (Marker.Renamed nonce nonce' k) n') : refusals nonce values n = refusals nonce' values n' := by
  induction n generalizing n' with
  | element name as cs ih =>
    cases h with
    | element has hcs =>
      rw [refusals, refusals, ← isSlot_eq_of_related hk hcs]
      by_cases hs : isSlot nonce cs = true
      · rw [if_pos hs, if_pos hs, untrusted, untrusted, (renamed_written hn hn' _ hs hcs).indexes_eq hk]
      · rw [if_neg hs, if_neg hs, refusalsAll_eq_flatMap, refusalsAll_eq_flatMap, List.flatMap_def, List.flatMap_def,
          map_eq_map_of_forall₂ hcs fun c hc c' hcc => ih c hc hcc]
  | text t =>
    cases h
    rfl
  | comment t =>
    cases h
    rfl

end

/-! ## The same tree, once it is filled -/

section

variable (hk : values.length ≤ Marker.indexLimit)

include hk

theorem fill_eq_of_renamed {t t' : Text} (h : Marker.Renamed nonce nonce' values.length t t') :
    fill nonce values t = fill nonce' values t' := by
  refine h.replace_eq hk fun i hi => ?_
  have hlt := h.lt_of_mem_indexes hk i hi
  exact ⟨_, by rw [List.getElem?_eq_getElem hlt, Option.map_some]⟩

/-- Where no value is refused, every marker of a slot stands for markup. -/
theorem spliced_eq_of_renamed {t t' : Text} (h : Marker.Renamed nonce nonce' values.length t t')
    (ht : untrusted nonce values t = []) : spliced nonce values t = spliced nonce' values t' := by
  refine h.replace_eq hk fun i hi => ?_
  have hlt := h.lt_of_mem_indexes hk i hi
  have htrusted : ¬isTextAt values i = true := List.filter_eq_nil_iff.1 ht i hi
  rw [isTextAt_eq_true, List.getElem?_eq_getElem hlt] at htrusted
  rw [markupAt, List.getElem?_eq_getElem hlt]
  cases hv : values[i] with
  | trusted m => exact ⟨m.content, rfl⟩
  | text s => exact absurd ⟨s, by rw [hv]⟩ htrusted

theorem fillAttribute_eq_of_related {a b : Attribute Text} (h : a.Related (Marker.Renamed nonce nonce' values.length) b)
    (ha : Marker.isIn nonce a.name = false) : fillAttribute nonce values a = fillAttribute nonce' values b := by
  obtain ⟨name, value⟩ := a
  obtain ⟨name', value'⟩ := b
  obtain ⟨hname, hvalue⟩ := h
  obtain rfl := hname.eq_of_not_isIn hk ha
  cases hvalue with
  | none => rfl
  | some hv => rw [fillAttribute, fillAttribute, Option.map_some, Option.map_some, fill_eq_of_renamed hk hv]

/-- **Where nothing is refused and no marker stays, related trees are filled to the same tree.** -/
theorem filled_eq_of_related (hn : Marker.IsNonce nonce) (hn' : Marker.IsNonce nonce') (n : Node) {n' : Node}
    (h : n.Related (Marker.Renamed nonce nonce' values.length) n') (hm : n.Each (KeepsNoMarker nonce))
    (hr : refusals nonce values n = []) : filled nonce values n = filled nonce' values n' := by
  induction n generalizing n' with
  | element name as cs ih =>
    obtain ⟨hnames, hmcs⟩ := Node.each_element.1 hm
    cases h with
    | element has hcs =>
      have hattributes := map_eq_map_of_forall₂ has fun a ha b hab => fillAttribute_eq_of_related hk hab (hnames a ha)
      rw [refusals] at hr
      rw [filled, filled, ← isSlot_eq_of_related hk hcs, hattributes]
      by_cases hs : isSlot nonce cs = true
      · rw [if_pos hs] at hr
        rw [if_pos hs, if_pos hs, slotContent, slotContent,
          spliced_eq_of_renamed hk (renamed_written hn hn' _ hs hcs) hr]
      · rw [if_neg hs, refusalsAll_eq_flatMap, List.flatMap_eq_nil_iff] at hr
        have hchildren := map_eq_map_of_forall₂ hcs fun c hc c' hcc => ih c hc hcc (hmcs c hc) (hr c hc)
        rw [if_neg hs, if_neg hs, filledAll_eq_map, filledAll_eq_map, hchildren]
  | text t =>
    cases h with
    | text ht => rw [filled, filled, fill_eq_of_renamed hk ht]
  | comment t =>
    cases h with
    | comment ht => rw [filled, filled, ht.eq_of_not_isIn hk (Node.each_comment.1 hm)]

end

/-- **The nonce is not seen in a result.**  Where `$` is in no segment, written or decoded, no marker stays in a comment
or in the name of an attribute and there are no more values than numbers, a template gives the same markup or the same
refusal under any two nonces. -/
theorem render_nonce_irrelevant {segments : List Text} (hn : Marker.IsNonce nonce) (hn' : Marker.IsNonce nonce')
    (hk : values.length ≤ Marker.indexLimit) (hs : ∀ s ∈ segments, '$' ∉ s ∧ '$' ∉ Reference.decode s)
    (hm : (tree nonce segments).Each (KeepsNoMarker nonce)) :
    render nonce values segments = render nonce' values segments := by
  by_cases hl : segments.length = values.length + 1
  · by_cases hv : values = []
    · subst hv
      rfl
    · have htree : (tree nonce segments).Related (Marker.Renamed nonce nonce' values.length) (tree nonce' segments) :=
        related_tree hn hn' hk (Nat.le_of_eq hl) hs
      have hrefusals : refusals nonce values (tree nonce segments) = refusals nonce' values (tree nonce' segments) :=
        refusals_eq_of_related hk hn hn' _ htree
      rw [render_eq hv hl, render_eq hv hl, ← hrefusals]
      cases hr : refusals nonce values (tree nonce segments) with
      | cons i is => rfl
      | nil => rw [filled_eq_of_related hk hn hn' _ htree hm hr]
  · rw [render, render, if_pos hl, if_pos hl]

theorem render_nonce_irrelevant_link :
    render "0123456789abcdef0123456789abcdef".toList [.text ['"'], .trusted ⟨"<i>".toList⟩, .text ['&']]
        ["<a href=/".toList, ">".toList, "</a>&".toList, "lt;".toList] =
      .ok ⟨"<a href=\"/&quot;\"><i></i></a>&amp;&amp;lt;".toList⟩ ∧
    render "ffffffffffffffffffffffffffffffff".toList [.text ['"'], .trusted ⟨"<i>".toList⟩, .text ['&']]
        ["<a href=/".toList, ">".toList, "</a>&".toList, "lt;".toList] =
      .ok ⟨"<a href=\"/&quot;\"><i></i></a>&amp;&amp;lt;".toList⟩ := by
  have hsame := @render_nonce_irrelevant "0123456789abcdef0123456789abcdef".toList
    "ffffffffffffffffffffffffffffffff".toList [.text ['"'], .trusted ⟨"<i>".toList⟩, .text ['&']]
    ["<a href=/".toList, ">".toList, "</a>&".toList, "lt;".toList] (by decide) (by decide) (by decide)
    (by decide +kernel) (by decide +kernel)
  rw [hsame, and_self]
  decide +kernel

end Template
end SafeMarkup
