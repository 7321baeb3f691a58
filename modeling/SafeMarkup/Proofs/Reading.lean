import SafeMarkup.Proofs.ReadBack
import SafeMarkup.Proofs.Spans
/-!
# What reading builds

Whatever the text, the tree it is read as is sound, no raw text in it holds an end tag of its element, and no text in it
is empty (`Node.each_parsed_parse`).  The fragment that is being read is so at every step: spans give sound tokens, and a
sound token keeps the fragment sound.
-/
namespace SafeMarkup

/-- What each node of a tree that was read is like. -/
structure Node.Parsed (n : Node) : Prop where
  sound : n.Sound
  rawClosed : n.RawClosed
  full : n.isEmptyText = false

/-- The children of an element as they are read, the last one first. -/
structure Node.Siblings (ns : List Node) : Prop where
  apart : Node.Apart ns
  parsed : ∀ n ∈ ns, n.Each Node.Parsed

structure OpenElement.Sound (e : OpenElement) : Prop where
  isName : Element.isName e.name = true
  attributeNames : ∀ a ∈ e.attributes, Element.isAttributeName a.name = true
  distinct : (e.attributes.map (·.name)).Nodup
  void : Element.isVoid e.name = false
  rawText : Element.isRawText e.name = false
  children : Node.Siblings e.children

structure Fragment.Sound (f : Fragment) : Prop where
  path : ∀ e ∈ f.path, e.Sound
  children : Node.Siblings f.children

namespace Node

theorem apart_reverse {ns : List Node} : Apart ns.reverse ↔ Apart ns := by
  rw [Apart, List.isChain_reverse]
  simp only [and_comm, Apart]

theorem siblings_nil : Siblings [] := ⟨.nil, by simp⟩

theorem siblings_addChild {n : Node} {ns : List Node} (hn : n.Each Parsed) (h : Siblings ns) :
    Siblings (Fragment.addChild n ns) := by
  rcases Fragment.addChild_cases n ns with ⟨t, s, before, rfl, rfl, hadd⟩ | ⟨hhead, hadd⟩
  · obtain ⟨hs, hbefore⟩ := List.forall_mem_cons.1 h.parsed
    have hfull : isEmptyText (.text (s ++ t)) = false := by
      have := (each_text.1 hs).full
      cases s with
      | nil => cases this
      | cons => rfl
    rw [hadd]
    refine ⟨?_, List.forall_mem_cons.2 ⟨each_text.2 ⟨trivial, trivial, hfull⟩, hbefore⟩⟩
    exact List.isChain_cons.2 ⟨(List.isChain_cons.1 h.apart).1, (List.isChain_cons.1 h.apart).2⟩
  · rw [hadd]
    refine ⟨List.isChain_cons.2 ⟨fun a ha hna => hhead a ha hna.symm, h.apart⟩, ?_⟩
    exact List.forall_mem_cons.2 ⟨hn, h.parsed⟩

theorem each_parsed_element {name : Text} {as : List (Attribute Text)} {cs : List Node}
    (hfit : Element.Fits name as cs) (hr : Element.isRawText name = false) (hcs : ∀ c ∈ cs, c.Each Parsed) :
    (element name as cs).Each Parsed :=
  each_element.2 ⟨⟨hfit, (fun h => nomatch hr.symm.trans h), rfl⟩, hcs⟩

theorem each_parsed_rawText {name t : Text} {as : List (Attribute Text)} (hn : Element.isName name = true)
    (ha : ∀ a ∈ as, Element.isAttributeName a.name = true) (hd : (as.map (·.name)).Nodup)
    (hv : Element.isVoid name = false) (ht : ¬Element.HasEndTag name t) :
    (element name as (if t.isEmpty then [] else [.text t])).Each Parsed := by
  have hvoid : ∀ cs : List Node, Element.isVoid name = true → cs = [] := fun _ h => nomatch hv.symm.trans h
  cases t with
  | nil =>
    exact each_element.2 ⟨⟨⟨hn, ha, hd, hvoid _, fun _ => .inl rfl, .nil⟩, (fun _ _ h => nomatch h), rfl⟩, by simp⟩
  | cons c t =>
    refine each_element.2 ⟨⟨⟨hn, ha, hd, hvoid _, fun _ => .inr ⟨_, rfl⟩, .singleton _⟩, fun _ s hs => ?_, rfl⟩, ?_⟩
    · obtain rfl := Node.text.inj (List.mem_singleton.1 hs)
      exact ht
    · exact List.forall_mem_singleton.2 (each_text.2 ⟨trivial, trivial, rfl⟩)

end Node

theorem OpenElement.Sound.fits {e : OpenElement} (h : e.Sound) :
    Element.Fits e.name e.attributes e.children.reverse where
  isName := h.isName
  attributeNames := h.attributeNames
  distinct := h.distinct
  void hv := nomatch h.void.symm.trans hv
  rawText hr := nomatch h.rawText.symm.trans hr
  apart := Node.apart_reverse.2 h.children.apart

namespace Fragment

theorem sound_empty : empty.Sound := ⟨by simp [empty], Node.siblings_nil⟩

theorem Sound.add {f : Fragment} {n : Node} (h : f.Sound) (hn : n.Each Node.Parsed) : (f.add n).Sound := by
  obtain ⟨path, cs⟩ := f
  cases path with
  | nil => exact ⟨by simp [Fragment.add], Node.siblings_addChild hn h.children⟩
  | cons e path =>
    obtain ⟨he, hp⟩ := List.forall_mem_cons.1 h.path
    exact ⟨List.forall_mem_cons.2 ⟨{ he with children := Node.siblings_addChild hn he.children }, hp⟩, h.children⟩

theorem Sound.graft_text {f : Fragment} (h : f.Sound) (t : Text) : (f.graft (.text t)).Sound := by
  rw [graft]
  split
  · exact h
  · rename_i ht
    exact h.add (Node.each_text.2 ⟨trivial, trivial, by simpa using ht⟩)

theorem Sound.closeOne {f : Fragment} (h : f.Sound) : f.closeOne.Sound := by
  obtain ⟨path, cs⟩ := f
  cases path with
  | nil => exact h
  | cons e path =>
    obtain ⟨he, hp⟩ := List.forall_mem_cons.1 h.path
    refine Sound.add ⟨hp, h.children⟩ (Node.each_parsed_element he.fits he.rawText fun c hc => ?_)
    exact he.children.parsed c (List.mem_reverse.1 hc)

theorem Sound.repeat_closeOne {f : Fragment} (h : f.Sound) : ∀ n, (Nat.repeat Fragment.closeOne n f).Sound
  | 0 => h
  | n + 1 => (h.repeat_closeOne n).closeOne

/-- **What a span gives keeps a fragment sound.** -/
theorem Sound.foldl_step {f : Fragment} {x : Text} {ts : List (Token Text)} (h : f.Sound) (hg : Span.Gives x ts) :
    (ts.foldl step f).Sound := by
  cases hg with
  | run =>
    rw [List.foldl_cons, List.foldl_nil, step_text]
    exact h.graft_text _
  | nothing => exact h
  | doctype t => exact h
  | comment ht => exact h.add (Node.each_comment.2 ⟨ht, trivial, rfl⟩)
  | endTag name => exact h.repeat_closeOne _
  | @startTag name as selfClosing hn ha hd hv hr =>
    cases selfClosing with
    | true =>
      refine h.add (Node.each_element.2 ⟨⟨⟨hn, ha, hd, fun _ => rfl, fun _ => .inl rfl, .nil⟩, ?_, rfl⟩, by simp⟩)
      exact fun _ t ht => nomatch ht
    | false =>
      refine ⟨List.forall_mem_cons.2 ⟨⟨hn, ha, hd, ?_, ?_, Node.siblings_nil⟩, h.path⟩, h.children⟩
      · exact Bool.eq_false_iff.2 fun hv' => nomatch hv hv'
      · exact Bool.eq_false_iff.2 fun hr' => nomatch hr hr'
  | @rawText name as u t v hn ha hd hv ht hx hu hs =>
    rw [foldl_rawText]
    exact h.add (Node.each_parsed_rawText hn ha hd hv ht)

theorem read_induct {P : Fragment → Prop} (hstep : ∀ f x ts, Span.Gives x ts → P f → P (ts.foldl step f)) (t : Text)
    (f : Fragment) (h : P f) : P (f.read t) := by
  cases t with
  | nil => rwa [read_nil]
  | cons c t =>
    obtain ⟨x, -, -, hg⟩ := Span.read_takes (List.cons_ne_nil c t)
    rw [read_span f (List.cons_ne_nil c t) rfl]
    exact read_induct hstep _ _ (hstep f x _ hg h)
termination_by t.length
decreasing_by exact Span.read_length

theorem Sound.read {f : Fragment} (h : f.Sound) (t : Text) : (f.read t).Sound :=
  read_induct (fun _ _ _ hg hf => hf.foldl_step hg) t f h

end Fragment

namespace Node

/-- **Every node of a tree that was read is sound**, its raw text is closed, and it is no empty text. -/
theorem each_parsed_parse (t : Text) : (parse t).Each Parsed := by
  have h := (Fragment.sound_empty.read t).repeat_closeOne (Fragment.empty.read t).path.length
  refine each_parsed_element ⟨by decide, by simp, by simp, fun hv => absurd hv (by decide),
    fun hr => absurd hr (by decide), apart_reverse.2 h.children.apart⟩ (by decide) fun c hc => ?_
  exact h.children.parsed c (List.mem_reverse.1 hc)

end Node
end SafeMarkup
