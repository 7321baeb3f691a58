import SafeMarkup.Proofs.Resolution
import SafeMarkup.Proofs.DocumentOrder
import SafeMarkup.Proofs.JoinedMarkers
/-!
# What a template refuses

A template is refused exactly if the marker of a text stands in a text that is all an element holds, and the refusal
names the first such marker in document order (`render_refuses`).  Where the segments hold no `$`, document order is the
order of the numbers.
-/
namespace SafeMarkup
namespace Template

section

variable (nonce : Text) (values : List Interpolation)

/-- The numbers of the markers in a text that is all an element holds. -/
def leafMarkers : Node → List Nat
  | .element _ _ [.text t] => Marker.indexes nonce t
  | _ => []

/-- The numbers of the markers that stand where markup is inserted, in document order. -/
def slotMarkers (n : Node) : List Nat := n.gather (leafMarkers nonce)

/-- Whether a marker stands where markup is inserted, and its value is a text. -/
def RefusedAt (n : Node) (i : Nat) : Prop :=
  ∃ name as t s, .element name as [.text t] ∈ n.descendants ∧ i ∈ Marker.indexes nonce t ∧ values[i]? = some (.text s)

end

variable {nonce : Text} {values : List Interpolation}

theorem leafMarkers_eq_nil {n : Node} (h : ∀ name as t, n ≠ .element name as [.text t]) : leafMarkers nonce n = [] := by
  unfold leafMarkers
  split
  · exact absurd rfl (h _ _ _)
  · rfl

theorem slotMarkers_leaf (name : Text) (as : List (Attribute Text)) (t : Text) :
    slotMarkers nonce (.element name as [.text t]) = Marker.indexes nonce t := by
  rw [slotMarkers, Node.gather_element, Node.gatherAll_cons, Node.gather_text]
  exact List.append_nil _

theorem slotMarkers_element {name : Text} {as : List (Attribute Text)} {cs : List Node} (h : ∀ t, cs ≠ [.text t]) :
    slotMarkers nonce (.element name as cs) = cs.flatMap (slotMarkers nonce) := by
  have hnil : leafMarkers nonce (.element name as cs) = [] :=
    leafMarkers_eq_nil fun _ _ t he => h t (Node.element.inj he).2.2
  rw [slotMarkers, Node.gather_element, hnil, List.nil_append, Node.gatherAll_eq_flatMap]
  rfl

theorem mem_slotMarkers {n : Node} {i : Nat} : i ∈ slotMarkers nonce n ↔
    ∃ name as t, .element name as [.text t] ∈ n.descendants ∧ i ∈ Marker.indexes nonce t := by
  rw [slotMarkers, Node.gather, List.mem_flatMap]
  constructor
  · rintro ⟨m, hm, hi⟩
    by_cases h : ∃ name as t, m = .element name as [.text t]
    · obtain ⟨name, as, t, rfl⟩ := h
      exact ⟨name, as, t, hm, hi⟩
    · rw [leafMarkers_eq_nil fun name as t he => h ⟨name, as, t, he⟩] at hi
      cases hi
  · rintro ⟨name, as, t, hm, hi⟩
    exact ⟨_, hm, hi⟩

theorem refusedAt_iff {n : Node} {i : Nat} :
    RefusedAt nonce values n i ↔ i ∈ (slotMarkers nonce n).filter (isTextAt values) := by
  rw [List.mem_filter, mem_slotMarkers, isTextAt_eq_true]
  constructor
  · rintro ⟨name, as, t, s, hm, hi, hs⟩
    exact ⟨⟨name, as, t, hm, hi⟩, s, hs⟩
  · rintro ⟨⟨name, as, t, hm, hi⟩, s, hs⟩
    exact ⟨name, as, t, s, hm, hi, hs⟩

theorem indexes_write (hn : Marker.IsNonce nonce) (raw : Bool) (t : Text) :
    Marker.indexes nonce (Node.writeAll raw [.text t]) = Marker.indexes nonce t := by
  rw [Node.writeAll, Node.writeAll, List.append_nil, Node.write]
  cases raw with
  | true => rfl
  | false => exact Marker.indexes_escapeText hn t

theorem refusals_leaf (hn : Marker.IsNonce nonce) (name : Text) (as : List (Attribute Text)) (t : Text) :
    refusals nonce values (.element name as [.text t]) = untrusted nonce values t := by
  rw [refusals]
  by_cases hs : isSlot nonce [.text t] = true
  · rw [if_pos hs, untrusted, untrusted, indexes_write hn]
  · have hnil : Marker.indexes nonce t = [] := by simpa [isSlot, Marker.isIn] using hs
    rw [if_neg hs, untrusted, hnil]
    rfl

/-- **The check sees the markers of all slots in document order**, though it is made on slots as they are written. -/
theorem refusals_eq (hn : Marker.IsNonce nonce) (n : Node) :
    refusals nonce values n = (slotMarkers nonce n).filter (isTextAt values) := by
  induction n with
  | element name as cs ih =>
    by_cases hleaf : ∃ t, cs = [.text t]
    · obtain ⟨t, rfl⟩ := hleaf
      rw [refusals_leaf hn, slotMarkers_leaf, untrusted]
    · have hne : ∀ t, cs ≠ [.text t] := fun t ht => hleaf ⟨t, ht⟩
      -- only a leaf can be a slot
      have hs : ¬isSlot nonce cs = true := fun hs => by
        obtain ⟨t, rfl, -⟩ := isSlot_eq_true.1 hs
        exact hne t rfl
      rw [refusals, if_neg hs, slotMarkers_element hne, List.filter_flatMap, refusalsAll_eq_flatMap, List.flatMap_def,
        List.flatMap_def, List.map_congr_left ih]
  | text t => rfl
  | comment t => rfl

/-! ## Document order is the order of the numbers -/

/-- The numbers of the markers in a node that is a text. -/
def textMarkers (nonce : Text) (n : Node) : List Nat := Marker.indexes nonce n.ownText

theorem slotMarkers_sublist (n : Node) : (slotMarkers nonce n).Sublist (n.gather (textMarkers nonce)) := by
  induction n with
  | element name as cs ih =>
    have hnil : textMarkers nonce (.element name as cs) = [] := Marker.indexes_nil
    rw [Node.gather_element, hnil, List.nil_append]
    by_cases hleaf : ∃ t, cs = [.text t]
    · obtain ⟨t, rfl⟩ := hleaf
      rw [slotMarkers_leaf, Node.gatherAll_cons, Node.gather_text]
      exact List.sublist_append_left _ _
    · rw [slotMarkers_element fun t ht => hleaf ⟨t, ht⟩, Node.gatherAll_eq_flatMap]
      exact List.Sublist.flatMap_right cs ih
  | text t => exact List.nil_sublist _
  | comment t => exact List.nil_sublist _

theorem additive_textMarkers : Additive (textMarkers nonce) fun t => ∃ is, Marker.Marked nonce t is where
  element _ _ _ := rfl
  nil := Marker.indexes_nil
  append := by
    rintro s t ⟨is, hs⟩ ⟨js, ht⟩
    simp only [textMarkers, Node.ownText]
    rw [(hs.append ht).indexes, hs.indexes, ht.indexes]
  closed := by
    rintro s t ⟨is, hs⟩ ⟨js, ht⟩
    exact ⟨is ++ js, hs.append ht⟩

theorem given_textMarkers (tok : Token Text) : tok.given (textMarkers nonce) = Marker.indexes nonce tok.content := by
  cases tok with
  | text t => rfl
  | startTag name as selfClosing => rfl
  | comment t => rfl
  | endTag name => exact Marker.indexes_nil.symm
  | doctype t => exact Marker.indexes_nil.symm

/-- **The markers of the slots stand in the order of their numbers**, if there is no other `$` in the segments. -/
theorem pairwise_slotMarkers (hn : Marker.IsNonce nonce) {segments : List Text}
    (hl : segments.length ≤ Marker.indexLimit + 1) (hs : ∀ s ∈ segments, '$' ∉ s ∧ '$' ∉ Reference.decode s) :
    (slotMarkers nonce (tree nonce segments)).Pairwise (· < ·) := by
  have hmarked := @Marker.marked_join nonce segments 0 (fun s hm => (hs s hm).1) (by omega)
  have hd := Marker.not_standsIn_join hn fun s hm => (hs s hm).2
  obtain ⟨hsub, htexts⟩ := Marker.markedTokens_tokens hn _ hmarked hd
  have hgather := Node.gather_ofTokens additive_textMarkers htexts
  have hgiven : Token.given (textMarkers nonce) = fun tok => Marker.indexes nonce tok.content := by
    funext tok
    exact given_textMarkers tok
  have hroot : textMarkers nonce (.element Element.root [] []) = [] := Marker.indexes_nil
  rw [hroot, hgiven, List.nil_append] at hgather
  have hrange : (List.range' 0 (segments.length - 1)).Pairwise (· < ·) := List.pairwise_lt_range'
  refine hrange.sublist ((slotMarkers_sublist _).trans ?_)
  rw [tree, Node.parse, hgather]
  exact hsub

theorem find?_le {is : List Nat} {p : Nat → Bool} {i k : Nat} (h : is.Pairwise (· < ·)) (hi : is.find? p = some i)
    (hk : k ∈ is) (hp : p k = true) : i ≤ k := by
  obtain ⟨-, as, bs, rfl, has⟩ := List.find?_eq_some_iff_append.1 hi
  rcases List.mem_append.1 hk with hk | hk
  · have := has k hk
    rw [hp] at this
    cases this
  · rcases List.mem_cons.1 hk with rfl | hk
    · exact Nat.le_refl _
    · exact Nat.le_of_lt (List.rel_of_pairwise_cons (List.pairwise_append.1 h).2.1 hk)

/-- **Trust checking is complete and exact.**  A template is refused if and only if the marker of a text stands where
markup is inserted; it is refused for nothing else and for the first such marker in document order.  That one has the
smallest number where the segments hold no `$`, written or decoded, and there are no more values than numbers. -/
theorem render_refuses {segments : List Text} (hn : Marker.IsNonce nonce) (hv : values ≠ [])
    (hs : segments.length = values.length + 1) :
    ((∃ r, render nonce values segments = .error r) ↔ ∃ i, RefusedAt nonce values (tree nonce segments) i) ∧
    (∀ r, render nonce values segments = .error r →
      ∃ i, r = .untrustedMarkup i ∧ (slotMarkers nonce (tree nonce segments)).find? (isTextAt values) = some i) ∧
    (values.length ≤ Marker.indexLimit → (∀ s ∈ segments, '$' ∉ s ∧ '$' ∉ Reference.decode s) →
      ∀ i, render nonce values segments = .error (.untrustedMarkup i) →
        RefusedAt nonce values (tree nonce segments) i ∧
        ∀ j, RefusedAt nonce values (tree nonce segments) j → i ≤ j) := by
  rw [render_eq hv hs, refusals_eq hn]
  simp only [refusedAt_iff, refusing_eq_error, List.head?_filter]
  refine ⟨⟨?_, ?_⟩, ?_, fun hl hd i hi => ?_⟩
  · rintro ⟨r, i, hi, -⟩
    exact ⟨i, List.mem_filter.2 ⟨List.mem_of_find?_eq_some hi, List.find?_some hi⟩⟩
  · rintro ⟨i, hi⟩
    obtain ⟨hm, ht⟩ := List.mem_filter.1 hi
    obtain ⟨j, hj⟩ := Option.isSome_iff_exists.1 (List.find?_isSome.2 ⟨i, hm, ht⟩)
    exact ⟨.untrustedMarkup j, j, hj, rfl⟩
  · rintro r ⟨i, hi, rfl⟩
    exact ⟨i, rfl, hi⟩
  · obtain ⟨j, hj, hij⟩ := hi
    obtain rfl := Refusal.untrustedMarkup.inj hij
    refine ⟨List.mem_filter.2 ⟨List.mem_of_find?_eq_some hj, List.find?_some hj⟩, fun k hk => ?_⟩
    obtain ⟨hkm, hkt⟩ := List.mem_filter.1 hk
    exact find?_le (pairwise_slotMarkers hn (by omega) hd) hj hkm hkt

theorem render_refuses_second :
    render ['a'] [.trusted ⟨['b']⟩, .text ['x'], .text ['y']] ["<p>".toList, "</p><i>".toList, "</i><b>".toList, []] =
        .error (.untrustedMarkup 1) ∧
      ∀ j, RefusedAt ['a'] [.trusted ⟨['b']⟩, .text ['x'], .text ['y']]
        (tree ['a'] ["<p>".toList, "</p><i>".toList, "</i><b>".toList, []]) j → 1 ≤ j := by
  have h := @render_refuses ['a'] [.trusted ⟨['b']⟩, .text ['x'], .text ['y']]
    ["<p>".toList, "</p><i>".toList, "</i><b>".toList, []] (by decide) (by simp) rfl
  have herror : render ['a'] [.trusted ⟨['b']⟩, .text ['x'], .text ['y']]
      ["<p>".toList, "</p><i>".toList, "</i><b>".toList, []] = .error (.untrustedMarkup 1) := by decide +kernel
  exact ⟨herror, (h.2.2 (by decide) (by decide +kernel) 1 herror).2⟩

end Template
end SafeMarkup
