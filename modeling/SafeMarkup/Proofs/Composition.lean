import SafeMarkup.Proofs.MarkerReplacement
import SafeMarkup.Proofs.NestedInterference
import SafeMarkup.Proofs.TrustCheck
/-!
# Templates compose

Markup that is an escaped text, or was read and written, is finished: wherever it is spliced in, it adds the nodes that
it is read as alone, and nothing else (`Text.Finished.closed`).  So a text that is all an element holds becomes the row
of its literal pieces and, at each marker, of the nodes of that marker's markup (`Template.resolve_leaf`), in any number
and any order.
-/
namespace SafeMarkup

namespace Node

/-! ## Neighbouring texts -/

/-- The nodes with a text in front, which goes on with the text that they begin with. -/
def addText (s : Text) : List Node → List Node
  | .text t :: ns => .text (s ++ t) :: ns
  | ns => if s.isEmpty then ns else .text s :: ns

/-- The nodes with neighbouring texts made one, and without empty texts. -/
def merged : List Node → List Node
  | [] => []
  | .text s :: ns => addText s (merged ns)
  | n :: ns => n :: merged ns

theorem addText_nil (ns : List Node) : addText [] ns = ns := by
  match ns with
  | [] => rfl
  | .text t :: ns => rfl
  | .element _ _ _ :: ns => rfl
  | .comment _ :: ns => rfl

theorem addText_addText (s t : Text) (ns : List Node) : addText s (addText t ns) = addText (s ++ t) ns := by
  cases t with
  | nil => rw [addText_nil, List.append_nil]
  | cons c t =>
    have hfull : (s ++ c :: t).isEmpty = false := by simp
    match ns with
    | [] => simp [addText]
    | .text u :: ns => simp [addText]
    | .element _ _ _ :: ns => simp [addText]
    | .comment _ :: ns => simp [addText]

theorem addText_cons {n : Node} (hn : n.isText = false) {s : Text} (hs : s.isEmpty = false) (ns : List Node) :
    addText s (n :: ns) = .text s :: n :: ns := by
  match n with
  | .element _ _ _ => simp [addText, hs]
  | .comment _ => simp [addText, hs]

theorem merged_cons {n : Node} (hn : n.isText = false) (ns : List Node) : merged (n :: ns) = n :: merged ns := by
  match n with
  | .element _ _ _ => rfl
  | .comment _ => rfl

/-- The nodes behind others, the last of which stands first. -/
def behind : List Node → List Node → List Node
  | .text s :: before, ns => before.reverse ++ addText s ns
  | before, ns => before.reverse ++ ns

theorem behind_of_head {before : List Node} (h : ∀ a ∈ before.head?, a.isText = false) (ns : List Node) :
    behind before ns = before.reverse ++ ns := by
  match before with
  | [] => rfl
  | .text s :: b => exact absurd (h _ rfl) (by simp [isText])
  | .element _ _ _ :: b => rfl
  | .comment _ :: b => rfl

theorem behind_cons {before : List Node} (h : ∀ a ∈ before.head?, a.isEmptyText = false) {n : Node}
    (hn : n.isText = false) (ns : List Node) : behind before (n :: ns) = before.reverse ++ n :: ns := by
  match before with
  | .text (c :: s) :: b => rw [behind, addText_cons hn rfl, List.reverse_cons, List.append_assoc]; rfl
  | .text [] :: b => exact absurd (h _ rfl) (by simp [isEmptyText])
  | [] => rfl
  | .element _ _ _ :: b => rfl
  | .comment _ :: b => rfl

/-- **Merging is done from the left or from the right.** -/
theorem behind_pile {before : List Node} (h : ∀ a ∈ before.head?, a.isEmptyText = false) (n : Node) (ns : List Node) :
    behind (Fragment.pile before n) (merged ns) = behind before (merged (n :: ns)) := by
  by_cases he : n.isEmptyText = true
  · have hn : n = .text [] := by
      match n with
      | .text [] => rfl
    rw [Fragment.pile, if_pos he, hn, merged, addText_nil]
  · rw [Fragment.pile, if_neg he]
    rcases Fragment.addChild_cases n before with ⟨t, s, b, rfl, rfl, hadd⟩ | ⟨hhead, hadd⟩
    · rw [hadd, behind, behind, merged, addText_addText]
    · rw [hadd]
      cases n with
      | text t =>
        have hbefore : ∀ a ∈ before.head?, a.isText = false := by
          intro a ha
          have hboth := hhead a ha
          simpa [isText] using hboth
        rw [behind, merged, behind_of_head hbefore]
      | element name as cs =>
        rw [merged_cons rfl, behind_cons h rfl, behind_of_head (by simp [isText]), List.reverse_cons, List.append_assoc]
        rfl
      | comment t =>
        rw [merged_cons rfl, behind_cons h rfl, behind_of_head (by simp [isText]), List.reverse_cons, List.append_assoc]
        rfl

theorem head?_pile {before : List Node} (h : ∀ a ∈ before.head?, a.isEmptyText = false) (n : Node) :
    ∀ a ∈ (Fragment.pile before n).head?, a.isEmptyText = false := by
  rw [Fragment.pile]
  by_cases he : n.isEmptyText = true
  · rwa [if_pos he]
  · rw [if_neg he]
    rcases Fragment.addChild_cases n before with ⟨t, s, b, rfl, rfl, hadd⟩ | ⟨-, hadd⟩
    · intro a ha
      have hs : isEmptyText (.text s) = false := h _ rfl
      rw [hadd] at ha
      obtain rfl := Option.some.inj ha
      cases s with
      | nil => cases hs
      | cons c s => rfl
    · intro a ha
      rw [hadd] at ha
      obtain rfl := Option.some.inj ha
      simpa using he

theorem reverse_foldl_pile : ∀ (ns : List Node) {before : List Node}, (∀ a ∈ before.head?, a.isEmptyText = false) →
    (ns.foldl Fragment.pile before).reverse = behind before (merged ns)
  | [], before, h => by
    match before with
    | .text (c :: s) :: b => rw [merged, behind, List.foldl_nil, List.reverse_cons]; rfl
    | .text [] :: b => exact absurd (h _ rfl) (by simp [isEmptyText])
    | [] => rfl
    | .element _ _ _ :: b => exact (List.append_nil _).symm
    | .comment _ :: b => exact (List.append_nil _).symm
  | n :: ns, before, h => by
    rw [List.foldl_cons, reverse_foldl_pile ns (head?_pile h n), behind_pile h]

theorem joined_eq_merged (ns : List Node) : joined ns = merged ns := reverse_foldl_pile ns (by simp)

theorem merged_text (t : Text) : merged [.text t] = Template.shownText t := by cases t <;> rfl

end Node

/-! ## Finished markup -/

namespace Fragment

theorem extend_append (f : Fragment) (ns ms : List Node) : f.extend (ns ++ ms) = (f.extend ns).extend ms := by
  rw [extend, List.foldl_append]
  rfl

theorem extend_singleton (f : Fragment) (n : Node) : f.extend [n] = f.graft n := rfl

theorem extend_reverse_pile (f : Fragment) (before : List Node) (n : Node) :
    f.extend (pile before n).reverse = (f.extend before.reverse).graft n := by
  by_cases he : n.isEmptyText = true
  · rw [pile, if_pos he, graft, if_pos he]
  · rw [pile, if_neg he]
    rcases addChild_cases n before with ⟨t, s, b, rfl, rfl, hadd⟩ | ⟨-, hadd⟩
    · rw [hadd, List.reverse_cons, List.reverse_cons, extend_append, extend_append, extend_singleton, extend_singleton,
        graft_text_text]
    · rw [hadd, List.reverse_cons, extend_append, extend_singleton]

theorem extend_reverse_foldl_pile (f : Fragment) : ∀ ns before : List Node,
    f.extend (ns.foldl pile before).reverse = (f.extend before.reverse).extend ns
  | [], _ => rfl
  | n :: ns, before => by
    rw [List.foldl_cons, extend_reverse_foldl_pile f ns, extend_reverse_pile, ← extend_singleton, ← extend_append]
    rfl

/-- **Joined nodes are added like the nodes themselves.** -/
theorem extend_joined (f : Fragment) (ns : List Node) : f.extend (Node.joined ns) = f.extend ns :=
  extend_reverse_foldl_pile f ns []

end Fragment

namespace Text

/-- Markup that is made by escaping a text, or by writing what was read. -/
inductive Finished : Text → Prop where
  | escaped (s : Text) : Finished (Trusted.escape s).content
  | written (u : Text) : Finished (Node.parse u).inner

/-- Closed markup adds the nodes that it is read as alone. -/
theorem Closed.alone {x : Text} {ns : List Node} (h : Closed x ns) : Closed x (Node.parse x).children := by
  intro f y
  have hchildren : (Node.parse x).children = Node.joined ns := by
    rw [Node.parse_of_closed h]
    rfl
  rw [hchildren, Fragment.extend_joined]
  exact h f y

/-- **Finished markup adds the nodes that it is read as alone**, wherever it stands. -/
theorem Finished.closed {x : Text} (h : Finished x) : Closed x (Node.parse x).children := by
  cases h with
  | escaped s => exact (closed_escape s).alone
  | written u =>
    have hparsed := Node.each_parsed_parse u
    have hwritten : Closed (Node.parse u).inner ((Node.parse u).children.map Node.asRead) :=
      Node.closed_inner (fun m hm => (hparsed m hm).sound) fun m hm => (hparsed m hm).rawClosed
    exact hwritten.alone

theorem closed_flatMap {α : Type} {f : α → Text} {g : α → List Node} : ∀ {xs : List α},
    (∀ x ∈ xs, Closed (f x) (g x)) → Closed (xs.flatMap f) (xs.flatMap g)
  | [], _ => closed_nil
  | x :: xs, h => by
    obtain ⟨hx, hxs⟩ := List.forall_mem_cons.1 h
    rw [List.flatMap_cons, List.flatMap_cons]
    exact hx.append (closed_flatMap hxs)

end Text

/-! ## Literal pieces -/

namespace Marker

variable {nonce : Text}

theorem runs_shown (f : Nat → Option Text) (ps : List Piece) :
    ps.flatMap (Piece.shown nonce f) = escapeText (runs ps).1 ++ (runs ps).2.flatMap fun r =>
      (Piece.marker r.1).replacement nonce (f (Text.digitsValue 10 r.1)) ++ escapeText r.2 := by
  induction ps with
  | nil => rfl
  | cons p ps ih =>
    rw [List.flatMap_cons, ih]
    cases p with
    | char c => rw [runs, escapeText_cons, List.append_assoc]; rfl
    | marker digits =>
      simp only [runs, List.flatMap_cons, List.append_assoc]
      rfl

end Marker

namespace Template

section

variable (nonce : Text) (values : List Interpolation)

/-- The nodes that the markup of a number is read as alone. -/
def nodesAt (i : Nat) : List Node :=
  match markupAt values i with
  | some m => (Node.parse m).children
  | none => []

/-- The literal pieces of a text, and at each marker between them the nodes of its markup. -/
def composed (t : Text) : List Node :=
  let r := Marker.runs (Marker.pieces nonce t)
  .text r.1 :: r.2.flatMap fun p => nodesAt values (Text.digitsValue 10 p.1) ++ [.text p.2]

end

variable {nonce : Text} {values : List Interpolation}

theorem closed_spliced (hn : Marker.IsNonce nonce) {t : Text}
    (hv : ∀ i ∈ Marker.indexes nonce t, ∃ m, values[i]? = some (.trusted m) ∧ Text.Finished m.content) :
    Text.Closed (spliced nonce values (escapeText t)) (composed nonce values t) := by
  rw [spliced, Marker.replace_escapeText hn, Marker.runs_shown]
  have hfirst := Text.closed_escapeText (Marker.runs (Marker.pieces nonce t)).1
  refine hfirst.append (Text.closed_flatMap fun p hp => ?_)
  have hi : Text.digitsValue 10 p.1 ∈ Marker.indexes nonce t := by
    rw [Marker.indexes, ← Marker.runs_indexes]
    exact List.mem_map_of_mem hp
  obtain ⟨m, hm, hfinished⟩ := hv _ hi
  have hmarkup : markupAt values (Text.digitsValue 10 p.1) = some m.content := by rw [markupAt, hm]
  have hnodes : nodesAt values (Text.digitsValue 10 p.1) = (Node.parse m.content).children := by rw [nodesAt, hmarkup]
  rw [hmarkup, hnodes]
  exact hfinished.closed.append (Text.closed_escapeText p.2)

theorem untrusted_eq_nil {t : Text} (hv : ∀ i ∈ Marker.indexes nonce t, ∃ m, values[i]? = some (.trusted m)) :
    untrusted nonce values t = [] := by
  apply List.filter_eq_nil_iff.2
  intro i hi ht
  obtain ⟨m, hm⟩ := hv i hi
  obtain ⟨s, hs⟩ := isTextAt_eq_true.1 ht
  rw [hm] at hs
  cases hs

/-- **Finished markup composes.**  An element whose text has markers of finished markup holds, in their order and with
neighbouring texts made one, the literal pieces of that text and the nodes that the markup of each marker is read as
alone; an escaped text is read as that text. -/
theorem resolve_leaf {name t : Text} {as : List (Attribute Text)} (hn : Marker.IsNonce nonce)
    (hr : Element.isRawText name = false) (ht : Marker.isIn nonce t = true)
    (hv : ∀ i ∈ Marker.indexes nonce t, ∃ m, values[i]? = some (.trusted m) ∧ Text.Finished m.content) :
    resolve nonce values (.element name as [.text t]) =
        .ok (.element name (as.map (fillAttribute nonce values)) (Node.merged (composed nonce values t))) ∧
      ∀ s, (Node.parse (Trusted.escape s).content).children = shownText s := by
  constructor
  · have hslot : isSlot nonce [.text t] = true := ht
    have hrefused : refusals nonce values (.element name as [.text t]) = [] := by
      rw [refusals_leaf hn]
      apply untrusted_eq_nil
      intro i hi
      obtain ⟨m, hm, -⟩ := hv i hi
      exact ⟨m, hm⟩
    have hparse := Node.parse_of_closed (closed_spliced hn hv)
    rw [resolve_eq, hrefused, filled, if_pos hslot, slotContent_text hr, hparse, Node.joined_eq_merged]
    rfl
  · intro s
    rw [Node.parse_of_closed (Text.closed_escape s), Node.joined_eq_merged, Node.merged_text]
    rfl

theorem resolve_leaf_twice :
    resolve ['a'] [.trusted (Trusted.escape "<b>".toList), .trusted ⟨(Node.parse "</p><i>x".toList).inner⟩]
        (.element ['p'] [] [.text "1 < $$$a:0$$$&$$$a:1$$$".toList]) =
      .ok (.element ['p'] [] [.text "1 < <b>&".toList, .element ['i'] [] [.text ['x']]]) := by
  have h := @resolve_leaf ['a']
    [.trusted (Trusted.escape "<b>".toList), .trusted ⟨(Node.parse "</p><i>x".toList).inner⟩] ['p']
    "1 < $$$a:0$$$&$$$a:1$$$".toList [] (by decide) (by decide) (by decide +kernel)
  have hindexes : Marker.indexes ['a'] "1 < $$$a:0$$$&$$$a:1$$$".toList = [0, 1] := by decide +kernel
  rw [hindexes] at h
  have hv := h fun i hi => by
    rcases List.mem_cons.1 hi with rfl | hi
    · exact ⟨_, rfl, .escaped _⟩
    · obtain rfl := List.mem_singleton.1 hi
      exact ⟨_, rfl, .written _⟩
  rw [hv.1]
  decide +kernel

/-- What a template renders is finished, if no raw text of it holds an end tag of its element. -/
theorem finished_render {segments : List Text} {m : Trusted} (hv : values ≠ [])
    (h : render nonce values segments = .ok m)
    (hc : (filled nonce values (tree nonce segments)).Each Node.RawClosed) : Text.Finished m.content := by
  rw [render_eq hv (length_of_render_eq_ok h)] at h
  obtain ⟨-, rfl⟩ := refusing_eq_ok.1 h
  have hparse := parse_inner_filled hc
  have hinner := (congrArg Node.inner hparse).trans (Node.inner_asRead _)
  have hfinished := Text.Finished.written (filled nonce values (tree nonce segments)).inner
  rwa [hinner] at hfinished

end Template
end SafeMarkup
