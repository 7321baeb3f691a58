import SafeMarkup.Proofs.NonceIndependence
import SafeMarkup.Proofs.Omissions
import SafeMarkup.Proofs.TrustCheck
/-!
# What becomes of a marker

The markers of a template are in its tree, once each, but for those that reading leaves out.  A marker of the tree is
replaced by its value, or refuses the template, or stays where markers are not replaced
(`Template.every_marker_settled`).  What is left out is lost without a trace (`Template.markers_can_be_lost`).
-/
namespace SafeMarkup

namespace Marker

variable {nonce nonce' : Text} {k i : Nat}

/-! ## A marker in a text -/

theorem Renamed.exists_eq_append (hk : k ≤ indexLimit) {t t' : Text} (h : Renamed nonce nonce' k t t')
    (hi : i ∈ indexes nonce t) : ∃ x x' y, t = x ++ (write nonce i ++ y) ∧ Renamed nonce nonce' k x x' := by
  induction h with
  | nil =>
    rw [indexes_nil] at hi
    cases hi
  | @char c t t' hc _ ih =>
    rw [indexes_char hc] at hi
    obtain ⟨x, x', y, rfl, hx⟩ := ih hi
    exact ⟨c :: x, c :: x', y, rfl, .char hc hx⟩
  | @marker j t t' hj _ ih =>
    rw [indexes_marker (Nat.lt_of_lt_of_le hj hk)] at hi
    rcases List.mem_cons.1 hi with rfl | hi
    · exact ⟨[], [], t, rfl, .nil⟩
    · obtain ⟨x, x', y, rfl, hx⟩ := ih hi
      exact ⟨write nonce j ++ x, write nonce' j ++ x', y, (List.append_assoc _ _ _).symm, .marker hj hx⟩

theorem Renamed.replace_append (hk : k ≤ indexLimit) (f : Nat → Option Text) {x x' : Text}
    (h : Renamed nonce nonce' k x x') (y : Text) : replace nonce f (x ++ y) = replace nonce f x ++ replace nonce f y := by
  induction h with
  | nil =>
    rw [replace_nil]
    rfl
  | char hc _ ih => rw [List.cons_append, replace_char hc, replace_char hc, ih, List.cons_append]
  | marker hi _ ih =>
    have hlimit := Nat.lt_of_lt_of_le hi hk
    rw [List.append_assoc, replace_marker hlimit, replace_marker hlimit, ih, List.append_assoc]

/-- **The value of a marker takes its place**, whatever stands around it. -/
theorem Renamed.replace_around (hk : k ≤ indexLimit) (hi : i < indexLimit) {f : Nat → Option Text} {v : Text}
    (hf : f i = some v) {x x' : Text} (h : Renamed nonce nonce' k x x') (y : Text) :
    replace nonce f (x ++ (write nonce i ++ y)) = replace nonce f x ++ (v ++ replace nonce f y) := by
  rw [h.replace_append hk, replace_marker hi, hf, Option.getD_some]

end Marker

namespace Template

/-- The texts of a node in which no marker is replaced: the names of its attributes, or a comment. -/
def keptTexts : Node → List Text
  | .element _ as _ => as.map (·.name)
  | .text _ => []
  | .comment t => [t]

/-- The numbers of the markers in a tree, which `markersLeft` counts. -/
def markers (nonce : Text) (n : Node) : List Nat := (n.gather ownTexts).flatMap (Marker.indexes nonce)

section

variable (nonce : Text) (values : List Interpolation)

/-- What has become of the marker of a number, whose value is `v`, where the tree `n` was resolved to `r`. -/
inductive Settled (n r : Node) (i : Nat) (v : Interpolation) : Prop where
  /-- In the value of an attribute and in a text with siblings, the value stands for it as a text. -/
  | filled {x y : Text} (hn : x ++ (Marker.write nonce i ++ y) ∈ n.gather ownTexts)
      (hr : fill nonce values x ++ (v.asText ++ fill nonce values y) ∈ r.gather ownTexts)
  /-- In a text that is all an element holds, trusted markup stands for it. -/
  | inserted {name x y : Text} {as : List (Attribute Text)} {m : Trusted} (hv : v = .trusted m)
      (hn : .element name as [.text (x ++ (Marker.write nonce i ++ y))] ∈ n.descendants)
      (hr : .element name (as.map (fillAttribute nonce values)) (content name
        (spliced nonce values ((Node.text x).write (Element.isRawText name)) ++
          (m.content ++ spliced nonce values ((Node.text y).write (Element.isRawText name))))) ∈ r.descendants)
  /-- In the name of an attribute and in a comment it stays. -/
  | left {t : Text} (hi : i ∈ Marker.indexes nonce t) (hn : t ∈ n.gather keptTexts) (hr : t ∈ r.gather ownTexts)

end

variable {nonce : Text} {values : List Interpolation} {k i : Nat} {v : Interpolation}

theorem gather_subset {β : Type} {m : Node → List β} {n n' : Node} (h : n.descendants ⊆ n'.descendants) :
    n.gather m ⊆ n'.gather m := by
  intro t ht
  obtain ⟨m, hm, ht⟩ := List.mem_flatMap.1 ht
  exact List.mem_flatMap.2 ⟨m, h hm, ht⟩

theorem Settled.mono {n r n' r' : Node} (h : Settled nonce values n r i v) (hn : n.descendants ⊆ n'.descendants)
    (hr : r.descendants ⊆ r'.descendants) : Settled nonce values n' r' i v := by
  cases h with
  | filled hmn hmr => exact .filled (gather_subset hn hmn) (gather_subset hr hmr)
  | inserted hv hmn hmr => exact .inserted hv (hn hmn) (hr hmr)
  | left hi hmn hmr => exact .left hi (gather_subset hn hmn) (gather_subset hr hmr)

theorem RefusedAt.mono {n n' : Node} (h : RefusedAt nonce values n i) (hn : n.descendants ⊆ n'.descendants) :
    RefusedAt nonce values n' i := by
  obtain ⟨name, as, t, s, hm, hi, hv⟩ := h
  exact ⟨name, as, t, s, hn hm, hi, hv⟩

theorem descendants_subset {c : Node} {cs : List Node} (hc : c ∈ cs) (name : Text) (as : List (Attribute Text)) :
    c.descendants ⊆ (Node.element name as cs).descendants := by
  intro m hm
  rw [Node.descendants]
  exact List.mem_cons_of_mem _ (Node.mem_descendantsAll.2 ⟨c, hc, hm⟩)

theorem mem_gather_attribute {as : List (Attribute Text)} {a : Attribute Text} (ha : a ∈ as) (name : Text)
    (cs : List Node) : ∀ t ∈ a.texts, t ∈ (Node.element name as cs).gather ownTexts := by
  intro t ht
  rw [Node.gather_element]
  exact List.mem_append_left _ (List.mem_flatMap.2 ⟨a, ha, ht⟩)

theorem mem_gather_name {as : List (Attribute Text)} {a : Attribute Text} (ha : a ∈ as) (name : Text)
    (cs : List Node) : a.name ∈ (Node.element name as cs).gather keptTexts := by
  rw [Node.gather_element]
  exact List.mem_append_left _ (List.mem_map_of_mem ha)

theorem mem_gather_element {t name : Text} {as : List (Attribute Text)} {cs : List Node} :
    t ∈ (Node.element name as cs).gather ownTexts ↔ (∃ a ∈ as, t ∈ a.texts) ∨ ∃ c ∈ cs, t ∈ c.gather ownTexts := by
  rw [Node.gather_element, List.mem_append, Node.gatherAll_eq_flatMap, List.mem_flatMap]
  exact or_congr List.mem_flatMap Iff.rfl

/-! ## What filling makes of a marker -/

theorem names_sublist : ∀ as : List (Attribute Text),
    (as.map (·.name)).Sublist ((as.map (fillAttribute nonce values)).flatMap Attribute.texts)
  | [] => .slnil
  | _ :: as => .cons_cons _ (.cons _ (names_sublist as))

/-- **Filling keeps the names of attributes and the comments**, in their order. -/
theorem keptTexts_sublist (n : Node) : (n.gather keptTexts).Sublist ((filled nonce values n).gather ownTexts) := by
  induction n with
  | element name as cs ih =>
    rw [filled, Node.gather_element, Node.gather_element]
    refine (names_sublist as).append ?_
    by_cases hslot : isSlot nonce cs = true
    · obtain ⟨s, rfl, -⟩ := isSlot_eq_true.1 hslot
      exact List.nil_sublist _
    · rw [if_neg hslot, filledAll_eq_map, Node.gatherAll_eq_flatMap, Node.gatherAll_eq_flatMap, List.flatMap_map]
      exact List.Sublist.flatMap_right cs ih
  | text t => exact List.nil_sublist _
  | comment t => exact List.Sublist.refl _

section

variable (hk : k ≤ Marker.indexLimit)

include hk

theorem exists_fill_eq {t : Text} (h : Marker.Whole nonce k t) (hi : i ∈ Marker.indexes nonce t)
    (hv : values[i]? = some v) : ∃ x y, t = x ++ (Marker.write nonce i ++ y) ∧
      fill nonce values t = fill nonce values x ++ (v.asText ++ fill nonce values y) := by
  have hlimit := Nat.lt_of_lt_of_le (h.lt_of_mem_indexes hk i hi) hk
  obtain ⟨x, x', y, rfl, hx⟩ := h.exists_eq_append hk hi
  exact ⟨x, y, rfl, hx.replace_around hk hlimit (by rw [hv, Option.map_some]) y⟩

theorem exists_spliced_eq (hn : Marker.IsNonce nonce) (raw : Bool) {t : Text} (h : Marker.Whole nonce k t)
    (hi : i ∈ Marker.indexes nonce t) {m : Trusted} (hv : values[i]? = some (.trusted m)) :
    ∃ x y, t = x ++ (Marker.write nonce i ++ y) ∧
      spliced nonce values (Node.writeAll raw [.text t]) =
        spliced nonce values ((Node.text x).write raw) ++
          (m.content ++ spliced nonce values ((Node.text y).write raw)) := by
  have hlimit := Nat.lt_of_lt_of_le (h.lt_of_mem_indexes hk i hi) hk
  have hmarkup : markupAt values i = some m.content := by rw [markupAt, hv]
  obtain ⟨x, x', y, rfl, hx⟩ := h.exists_eq_append hk hi
  refine ⟨x, y, rfl, ?_⟩
  rw [Node.writeAll, Node.writeAll, List.append_nil]
  cases raw with
  | true => exact hx.replace_around hk hlimit hmarkup y
  | false =>
    have hwritten : escapeText (x ++ (Marker.write nonce i ++ y)) =
        escapeText x ++ (Marker.write nonce i ++ escapeText y) := by
      rw [escapeText, List.flatMap_append, List.flatMap_append]
      exact congrArg (escapeText x ++ ·) (congrArg (· ++ escapeText y) (Marker.escapeText_write hn i))
    have hescape := hx.escape hn hn
    simp only [Node.write, hwritten]
    exact hescape.replace_around hk hlimit hmarkup (escapeText y)

/-- A marker in an attribute stays in its name and is replaced in its value. -/
theorem settled_attribute {name : Text} {as : List (Attribute Text)} {a : Attribute Text} (ha : a ∈ as)
    (cs ds : List Node) (hw : ∀ t ∈ a.texts, Marker.Whole nonce k t) (hv : values[i]? = some v) {t : Text}
    (ht : t ∈ a.texts) (hi : i ∈ Marker.indexes nonce t) :
    Settled nonce values (.element name as cs) (.element name (as.map (fillAttribute nonce values)) ds) i v := by
  have hn := mem_gather_attribute ha name cs
  have hr := mem_gather_attribute (List.mem_map_of_mem (f := fillAttribute nonce values) ha) name ds
  obtain ⟨attributeName, value⟩ := a
  rcases List.mem_cons.1 ht with rfl | ht
  · exact .left hi (mem_gather_name ha name cs) (hr _ (List.mem_cons_self ..))
  · obtain rfl := List.mem_singleton.1 ht
    cases value with
    | none =>
      rw [Option.getD_none, Marker.indexes_nil] at hi
      cases hi
    | some t =>
      have hmem : ∀ {b c : Text}, c ∈ [b, c] := List.mem_cons_of_mem _ (List.mem_singleton_self _)
      obtain ⟨x, y, rfl, hfill⟩ := exists_fill_eq hk (hw _ hmem) hi hv
      exact .filled (hn _ hmem) (hr _ (hfill ▸ hmem))

/-- **A marker of a tree is settled by resolving it**, unless its value is refused. -/
theorem refusedAt_or_settled (hn : Marker.IsNonce nonce) (hv : values[i]? = some v) (n : Node)
    (hw : ∀ t ∈ n.gather ownTexts, Marker.Whole nonce k t) {t : Text} (ht : t ∈ n.gather ownTexts)
    (hi : i ∈ Marker.indexes nonce t) :
    RefusedAt nonce values n i ∨ Settled nonce values n (filled nonce values n) i v := by
  induction n with
  | element name as cs ih =>
    rw [filled]
    rcases mem_gather_element.1 ht with ⟨a, ha, hta⟩ | ⟨c, hc, htc⟩
    · exact .inr (settled_attribute hk ha cs _ (fun s hs => hw s (mem_gather_attribute ha name cs s hs)) hv hta hi)
    · have hcn := descendants_subset hc name as
      by_cases hslot : isSlot nonce cs = true
      · obtain ⟨s, rfl, -⟩ := isSlot_eq_true.1 hslot
        obtain rfl := List.mem_singleton.1 hc
        obtain rfl : t = s := by simpa [Node.gather_text, ownTexts] using htc
        cases v with
        | text s => exact .inl ⟨name, as, t, s, List.mem_cons_self .., hi, hv⟩
        | trusted m =>
          obtain ⟨x, y, rfl, hspliced⟩ := exists_spliced_eq hk hn (Element.isRawText name) (hw _ ht) hi hv
          rw [if_pos hslot, slotContent, hspliced]
          exact .inr (.inserted rfl (List.mem_cons_self ..) (List.mem_cons_self ..))
      · rw [if_neg hslot, filledAll_eq_map]
        have hcr := descendants_subset (List.mem_map_of_mem (f := filled nonce values) hc) name
          (as.map (fillAttribute nonce values))
        exact (ih c hc (fun s hs => hw s (gather_subset hcn hs)) htc).imp (·.mono hcn) (·.mono hcn hcr)
  | text s =>
    obtain rfl : t = s := by simpa [Node.gather_text, ownTexts] using ht
    obtain ⟨x, y, rfl, hfill⟩ := exists_fill_eq hk (hw _ ht) hi hv
    refine .inr (.filled ht ?_)
    rw [filled, hfill, Node.gather_text]
    exact List.mem_singleton_self _
  | comment s =>
    obtain rfl : t = s := by simpa [Node.gather_comment, ownTexts] using ht
    exact .inr (.left hi ht ht)

end

/-! ## Templates -/

theorem whole_of_related {n : Node} (h : n.Related (Marker.Renamed nonce nonce k) n) :
    ∀ t ∈ n.gather ownTexts, Marker.Whole nonce k t := by
  induction n with
  | element name as cs ih =>
    cases h with
    | element has hcs =>
      intro t ht
      rcases mem_gather_element.1 ht with ⟨⟨attributeName, value⟩, ha, ht⟩ | ⟨c, hc, ht⟩
      · obtain ⟨hname, hvalue⟩ := List.forall₂_same.1 has _ ha
        rcases List.mem_cons.1 ht with rfl | ht
        · exact hname
        · obtain rfl := List.mem_singleton.1 ht
          cases hvalue with
          | none => exact .nil
          | some hs => exact hs
      · exact ih c hc (List.forall₂_same.1 hcs c hc) t ht
  | text s =>
    cases h with
    | text hs => simpa [Node.gather_text, ownTexts] using hs
  | comment s =>
    cases h with
    | comment hs => simpa [Node.gather_comment, ownTexts] using hs

section

variable {segments : List Text} (hn : Marker.IsNonce nonce) (hl : segments.length = values.length + 1)
  (hk : values.length ≤ Marker.indexLimit) (hs : ∀ s ∈ segments, '$' ∉ s ∧ '$' ∉ Reference.decode s)

include hl hk hs

theorem indexes_join : Marker.indexes nonce (join nonce 0 segments) = List.range values.length := by
  have hmarked : Marker.Marked nonce (join nonce 0 segments) _ :=
    Marker.marked_join segments 0 (fun s hm => (hs s hm).1) (by omega)
  rw [hmarked.indexes, hl, Nat.add_sub_cancel, List.range_eq_range']

include hn

/-- **The markers in the tree and those that are left out are one for each value.** -/
theorem markers_perm : (markers nonce (tree nonce segments) ++
    (omitted (join nonce 0 segments)).flatMap (Marker.indexes nonce)).Perm (List.range values.length) := by
  rw [List.perm_iff_count]
  intro i
  have hwhole : Marker.Whole nonce values.length (join nonce 0 segments) :=
    Marker.renamed_join segments 0 (fun s hm => (hs s hm).1) (by omega)
  have htimes := Marker.times_parse (i := i) hk hn hwhole (Marker.not_standsIn_join hn fun s hm => (hs s hm).2)
  rw [Marker.times_singleton, indexes_join hl hk hs] at htimes
  rw [List.count_append, htimes]
  rfl

/-- A marker in the tree refuses the template, or it is settled wherever the template succeeds. -/
theorem fate_of_mem_markers (hv : values[i]? = some v) (hi : i ∈ markers nonce (tree nonce segments)) :
    RefusedAt nonce values (tree nonce segments) i ∧
      (∃ j, render nonce values segments = .error (.untrustedMarkup j)) ∨
    ¬RefusedAt nonce values (tree nonce segments) i ∧ ∀ m, render nonce values segments = .ok m →
      ∃ r, resolve nonce values (tree nonce segments) = .ok r ∧ m = ⟨r.inner⟩ ∧
        Settled nonce values (tree nonce segments) r i v := by
  have hne : values ≠ [] := by
    rintro rfl
    cases hv
  have hwhole := whole_of_related (related_tree hn hn hk hl.le hs)
  obtain ⟨t, ht, hit⟩ := List.mem_flatMap.1 hi
  have hfate := refusedAt_or_settled hk hn hv _ hwhole ht hit
  rw [render_eq hne hl]
  by_cases hr : RefusedAt nonce values (tree nonce segments) i
  · have hmem := refusedAt_iff.1 hr
    rw [← refusals_eq hn] at hmem
    obtain ⟨j, js, hjs⟩ := List.exists_cons_of_ne_nil (List.ne_nil_of_mem hmem)
    rw [hjs]
    exact .inl ⟨hr, j, rfl⟩
  · refine .inr ⟨hr, fun m hm => ?_⟩
    obtain ⟨hnil, rfl⟩ := refusing_eq_ok.1 hm
    exact ⟨filled nonce values (tree nonce segments), by rw [resolve_eq, hnil]; rfl, rfl, hfate.resolve_left hr⟩

end

/-- The markers that stay where they are not replaced are counted as left. -/
theorem length_keptTexts_le {n r : Node} (h : resolve nonce values n = .ok r) :
    ((n.gather keptTexts).flatMap (Marker.indexes nonce)).length ≤ markersLeft nonce r := by
  rw [resolve_eq] at h
  obtain ⟨-, rfl⟩ := refusing_eq_ok.1 h
  exact ((keptTexts_sublist _).flatMap _).length_le

/-- **No interpolation is lost but those that reading leaves out.**  Where `$` is in no segment, written or decoded, and
there are no more values than numbers, the markers in the tree and those in what is left out are one for each value.
A marker in the tree refuses the template, or its value stands for it in the result, or it stays in the name of an
attribute or in a comment and is counted there. -/
theorem every_marker_settled {segments : List Text} (hn : Marker.IsNonce nonce)
    (hl : segments.length = values.length + 1) (hk : values.length ≤ Marker.indexLimit)
    (hs : ∀ s ∈ segments, '$' ∉ s ∧ '$' ∉ Reference.decode s) :
    (markers nonce (tree nonce segments) ++
      (omitted (join nonce 0 segments)).flatMap (Marker.indexes nonce)).Perm (List.range values.length) ∧
    (∀ i v, values[i]? = some v → i ∈ markers nonce (tree nonce segments) →
      RefusedAt nonce values (tree nonce segments) i ∧
        (∃ j, render nonce values segments = .error (.untrustedMarkup j)) ∨
      ¬RefusedAt nonce values (tree nonce segments) i ∧ ∀ m, render nonce values segments = .ok m →
        ∃ r, resolve nonce values (tree nonce segments) = .ok r ∧ m = ⟨r.inner⟩ ∧
          Settled nonce values (tree nonce segments) r i v) ∧
    ∀ r, resolve nonce values (tree nonce segments) = .ok r →
      (((tree nonce segments).gather keptTexts).flatMap (Marker.indexes nonce)).length ≤ markersLeft nonce r :=
  ⟨markers_perm hn hl hk hs, fun _ _ hv hi => fate_of_mem_markers hn hl hk hs hv hi, fun _ hr => length_keptTexts_le hr⟩

theorem every_marker_settled_comment :
    (markers ['a'] (tree ['a'] ["<p title=".toList, ">".toList, "</p><!--".toList, "--></p ".toList, ['>']]) ++
        (omitted (join ['a'] 0 ["<p title=".toList, ">".toList, "</p><!--".toList, "--></p ".toList, ['>']])).flatMap
          (Marker.indexes ['a'])).Perm (List.range 4) ∧
      ∃ r, r.inner = "<p title=\"v\"><b></b></p><!--$$$a:2$$$-->".toList ∧
        Settled ['a'] [.text ['v'], .trusted ⟨"<b>".toList⟩, .text ['w'], .text ['x']]
          (tree ['a'] ["<p title=".toList, ">".toList, "</p><!--".toList, "--></p ".toList, ['>']]) r 2 (.text ['w']) := by
  have h := @every_marker_settled ['a'] [.text ['v'], .trusted ⟨"<b>".toList⟩, .text ['w'], .text ['x']]
    ["<p title=".toList, ">".toList, "</p><!--".toList, "--></p ".toList, ['>']] (by decide) rfl (by decide)
    (by decide +kernel)
  have hrender : render ['a'] [.text ['v'], .trusted ⟨"<b>".toList⟩, .text ['w'], .text ['x']]
      ["<p title=".toList, ">".toList, "</p><!--".toList, "--></p ".toList, ['>']] =
        .ok ⟨"<p title=\"v\"><b></b></p><!--$$$a:2$$$-->".toList⟩ := by decide +kernel
  refine ⟨h.1, ?_⟩
  rcases h.2.1 2 (.text ['w']) rfl (by decide +kernel) with ⟨-, j, hj⟩ | ⟨-, hsettled⟩
  · rw [hrender] at hj
    cases hj
  · obtain ⟨r, -, hr, hr2⟩ := hsettled _ hrender
    exact ⟨r, (congrArg Trusted.content hr).symm, hr2⟩

/-- A repeated attribute, an end tag and a doctype, with its end or without, lose a marker. -/
theorem markers_can_be_lost :
    (∀ segments ∈ [["<p title=\"a\" title=\"".toList, "\">x</p>".toList], ["<p>x</p ".toList, ['>']],
        ["<!doctype ".toList, ">x".toList], ["x<!doctype ".toList, []]],
      (∀ s ∈ segments, '$' ∉ s ∧ '$' ∉ Reference.decode s) ∧
        0 ∉ markers (List.replicate 32 'a') (tree (List.replicate 32 'a') segments)) ∧
    render (List.replicate 32 'a') [.text ['v']] ["<p title=\"a\" title=\"".toList, "\">x</p>".toList] =
      .ok ⟨"<p title=\"a\">x</p>".toList⟩ := by
  decide +kernel

end Template
end SafeMarkup
