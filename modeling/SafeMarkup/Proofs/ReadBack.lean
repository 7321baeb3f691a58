import SafeMarkup.Proofs.Scanning
import SafeMarkup.Markup.Node.Fragment
/-!
# Written trees read back

Markup is closed when reading it, behind anything and before anything, adds certain nodes and does nothing else
(`Text.Closed`).  Escaped texts are closed, closed markup behind closed markup is closed, and a sound tree whose raw
text holds no end tag is written as closed markup that adds the tree itself, as far as it is read (`closed_write`).
-/
namespace SafeMarkup

namespace Fragment

/-- The fragment with a text read behind what it holds. -/
def read (f : Fragment) (t : Text) : Fragment := (tokens t).foldl step f

/-- Adds a node behind the others, the last of which stands first; an empty text is nothing. -/
def pile (before : List Node) (n : Node) : List Node := if n.isEmptyText then before else addChild n before

def graft (f : Fragment) (n : Node) : Fragment := if n.isEmptyText then f else f.add n

/-- Adds nodes to the innermost open element. -/
def extend (f : Fragment) (ns : List Node) : Fragment := ns.foldl graft f

theorem read_nil (f : Fragment) : f.read [] = f := by rw [read, tokens_nil, List.foldl_nil]

theorem read_span {t : Text} {s : Span} (f : Fragment) (ht : t ≠ []) (hs : Span.read t = s) :
    f.read t = (s.tokens.foldl step f).read s.rest := by
  obtain ⟨c, u, rfl⟩ := List.exists_cons_of_ne_nil ht
  rw [read, tokens_cons, hs, List.foldl_append]
  rfl

/-! ## Texts -/

theorem step_text (f : Fragment) (t : Text) : f.step (.text t) = f.graft (.text t) := by cases t <;> rfl

/-- A node is added behind the others, unless it is a text behind a text. -/
theorem addChild_cases (n : Node) (ns : List Node) :
    (∃ t s before, n = .text t ∧ ns = .text s :: before ∧ addChild n ns = .text (s ++ t) :: before) ∨
    (∀ a ∈ ns.head?, ¬(a.isText = true ∧ n.isText = true)) ∧ addChild n ns = n :: ns := by
  cases ns with
  | nil => exact .inr ⟨by simp, by cases n <;> rfl⟩
  | cons a before =>
    cases n with
    | text t =>
      cases a with
      | text s => exact .inl ⟨t, s, before, rfl, rfl, rfl⟩
      | element => exact .inr ⟨by simp [Node.isText], rfl⟩
      | comment => exact .inr ⟨by simp [Node.isText], rfl⟩
    | element => exact .inr ⟨by simp [Node.isText], rfl⟩
    | comment => exact .inr ⟨by simp [Node.isText], rfl⟩

theorem addChild_text_text (s t : Text) (before : List Node) :
    addChild (.text t) (addChild (.text s) before) = addChild (.text (s ++ t)) before := by
  match before with
  | [] => rfl
  | .text r :: b => simp [addChild]
  | .element _ _ _ :: b => rfl
  | .comment _ :: b => rfl

theorem graft_text_text (f : Fragment) (s t : Text) :
    (f.graft (.text s)).graft (.text t) = f.graft (.text (s ++ t)) := by
  cases s with
  | nil => rfl
  | cons c s =>
    cases t with
    | nil => rw [List.append_nil]; rfl
    | cons d t =>
      obtain ⟨path, cs⟩ := f
      cases path with
      | nil => exact congrArg (Fragment.mk []) (addChild_text_text (c :: s) (d :: t) cs)
      | cons e path =>
        exact congrArg (fun cs' => Fragment.mk (⟨e.name, e.attributes, cs'⟩ :: path) cs)
          (addChild_text_text (c :: s) (d :: t) e.children)

/-- A text may be read as a run up to the next markup, even where it begins with markup. -/
theorem read_run (f : Fragment) (t : Text) :
    f.read t = (f.graft (.text (Reference.decode (Text.cutAt Span.opensMarkup t).1))).read
      (Text.cutAt Span.opensMarkup t).2 := by
  cases t with
  | nil =>
    rw [Text.cutAt, Reference.decode_nil]
    rfl
  | cons c t =>
    by_cases h : Span.opensMarkup (c :: t) = true
    · rw [Text.cutAt_of_pos h, Reference.decode_nil]
      rfl
    · have h : Span.opensMarkup (c :: t) = false := by simpa using h
      have hs : Span.read (c :: t) = Span.ofRun (c :: t) := by rw [Span.read, if_neg (by simp [h])]
      rw [read_span f (List.cons_ne_nil c t) hs, Text.cutAt_of_neg h]
      simp only [Span.ofRun, List.foldl_cons, List.foldl_nil, step_text]

end Fragment

/-! ## Closed markup -/

/-- Markup that, wherever it stands, is read as some nodes and leaves nothing open. -/
def Text.Closed (x : Text) (ns : List Node) : Prop := ∀ (f : Fragment) y, f.read (x ++ y) = (f.extend ns).read y

namespace Text

theorem closed_nil : Closed [] [] := fun _ _ => rfl

theorem Closed.append {x y : Text} {ns ms : List Node} (hx : Closed x ns) (hy : Closed y ms) :
    Closed (x ++ y) (ns ++ ms) := fun f z => by
  rw [List.append_assoc, hx, hy, Fragment.extend, Fragment.extend, Fragment.extend, List.foldl_append]

theorem closed_of_decode {x t : Text} (hlt : '<' ∉ x)
    (hd : ∀ z, Reference.decode (x ++ z) = t ++ Reference.decode z) : Closed x [.text t] := by
  intro f y
  have hcut := cutAt_append_of_neg (p := Span.opensMarkup) (s := x) (t := y) fun u c v he =>
    Span.opensMarkup_of_ne (fun hc => hlt (by rw [he, hc]; simp)) _
  rw [Fragment.read_run, hcut, hd, ← Fragment.graft_text_text, ← Fragment.read_run]
  rfl

theorem closed_escapeText (t : Text) : Closed (escapeText t) [.text t] :=
  closed_of_decode (Reference.lt_notMem_escapeText t) (Reference.decode_escapeText t)

theorem closed_escape (t : Text) : Closed (Trusted.escape t).content [.text t] :=
  closed_of_decode (Reference.lt_notMem_escape t) (Reference.decode_escapeAnywhere t)

end Text

/-! ## Elements -/

namespace Fragment

theorem extend_open (name : Text) (as : List (Attribute Text)) (p : List OpenElement) (bs : List Node) :
    ∀ (ns cs : List Node), extend ⟨⟨name, as, cs⟩ :: p, bs⟩ ns = ⟨⟨name, as, ns.foldl pile cs⟩ :: p, bs⟩
  | [], _ => rfl
  | n :: ns, cs => by
    rw [extend, List.foldl_cons, List.foldl_cons, pile, graft]
    split
    · exact extend_open name as p bs ns cs
    · exact extend_open name as p bs ns _

theorem extend_root : ∀ (ns cs : List Node), extend ⟨[], cs⟩ ns = ⟨[], ns.foldl pile cs⟩
  | [], _ => rfl
  | n :: ns, cs => by
    rw [extend, List.foldl_cons, List.foldl_cons, pile, graft]
    split
    · exact extend_root ns cs
    · exact extend_root ns _

/-- **Where no two texts meet, adding nodes keeps them all**, the empty texts set aside. -/
theorem foldl_pile : ∀ (ns : List Node) {before : List Node}, Node.Apart ns →
    (∀ a ∈ before.head?, ∀ b ∈ ns.head?, ¬(a.isText = true ∧ b.isText = true)) →
    ns.foldl pile before = (ns.filter (!·.isEmptyText)).reverse ++ before
  | [], _, _, _ => rfl
  | n :: ns, before, h, h0 => by
    obtain ⟨hn, hns⟩ := List.isChain_cons.1 h
    rw [List.foldl_cons, pile, List.filter_cons]
    by_cases he : n.isEmptyText = true
    · -- the empty text is passed over, and what stands behind it is no text either
      rw [if_pos he, if_neg (by simp [he])]
      refine foldl_pile ns hns fun a ha b hb hab => ?_
      exact hn b hb ⟨Node.isText_of_isEmptyText he, hab.2⟩
    · have hadd : addChild n before = n :: before := by
        rcases addChild_cases n before with ⟨t, s, rest, rfl, rfl, -⟩ | ⟨-, hadd⟩
        · exact absurd ⟨rfl, rfl⟩ (h0 _ rfl _ rfl)
        · exact hadd
      rw [if_neg he, if_pos (by simpa using he), hadd, List.reverse_cons, List.append_assoc]
      exact foldl_pile ns hns fun a ha b hb => by
        obtain rfl := Option.some.inj ha
        exact hn b hb

theorem read_writeStart (f : Fragment) {name : Text} {as : List (Attribute Text)} {cs : List Node}
    (h : Element.Fits name as cs) (hv : Element.isVoid name = false) (hr : Element.isRawText name = false) (y : Text) :
    f.read (Node.writeStart name as ++ y) =
      (⟨⟨name, as.map Attribute.valued, []⟩ :: f.path, f.children⟩ : Fragment).read y := by
  rw [read_span f (by simp [Node.writeStart]) (Span.read_writeStart h y), Span.ofTag, if_neg (by simp [hv]),
    if_neg (by simp [hr])]
  rfl

theorem close_innermost (name : Text) (as : List (Attribute Text)) (cs : List Node) (f : Fragment) :
    close name ⟨⟨name, as, cs⟩ :: f.path, f.children⟩ = f.add (.element name as cs.reverse) := by
  have hd : depth? name ⟨⟨name, as, cs⟩ :: f.path, f.children⟩ = some 1 := by
    simp [depth?, List.findIdx?_cons, Text.sameFolded]
  rw [close, hd]
  rfl

theorem read_writeEnd (f : Fragment) {name : Text} (h : Element.isName name = true) (as : List (Attribute Text))
    (cs : List Node) (y : Text) :
    (⟨⟨name, as, cs⟩ :: f.path, f.children⟩ : Fragment).read (Node.writeEnd name ++ y) =
      (f.add (.element name as cs.reverse)).read y := by
  rw [read_span _ (by simp [Node.writeEnd]) (Span.read_writeEnd h y), ← close_innermost]
  rfl

theorem foldl_rawText (f : Fragment) (name t : Text) (as : List (Attribute Text)) :
    (.startTag name as false :: if t.isEmpty then [.endTag name] else [.text t, .endTag name]).foldl step f =
      f.add (.element name as (if t.isEmpty then [] else [.text t])) := by
  cases t with
  | nil => exact close_innermost name as [] f
  | cons c t => exact close_innermost name as [.text (c :: t)] f

theorem read_rawText (f : Fragment) {name t : Text} {as : List (Attribute Text)} {cs : List Node}
    (h : Element.Fits name as cs) (hv : Element.isVoid name = false) (hr : Element.isRawText name = true)
    (ht : ¬Element.HasEndTag name t) (y : Text) :
    f.read (Node.writeStart name as ++ (t ++ (Node.writeEnd name ++ y))) =
      (f.add (.element name (as.map Attribute.valued) (if t.isEmpty then [] else [.text t]))).read y := by
  rw [read_span f (by simp [Node.writeStart]) (Span.read_writeStart h _), Span.ofTag, if_neg (by simp [hv]), if_pos hr,
    Span.ofRawText_append h.isName ht]
  exact congrArg (Fragment.read · y) (foldl_rawText f name t _)

end Fragment

namespace Text

theorem closed_writeAll : ∀ {ns : List Node}, (∀ n ∈ ns, Closed (n.write false) [n.asRead]) →
    Closed (Node.writeAll false ns) (ns.map Node.asRead)
  | [], _ => closed_nil
  | n :: ns, h => by
    obtain ⟨hn, hns⟩ := List.forall_mem_cons.1 h
    rw [Node.writeAll, List.map_cons, ← List.singleton_append]
    exact hn.append (closed_writeAll hns)

end Text

namespace Node

theorem apart_map_asRead {ns : List Node} (h : Apart ns) : Apart (ns.map asRead) :=
  (List.isChain_map asRead).2 (h.imp fun a b hab => by rwa [isText_asRead, isText_asRead])

/-- The nodes with neighbouring texts made one, and without empty texts. -/
def joined (ns : List Node) : List Node := (ns.foldl Fragment.pile []).reverse

theorem joined_map_asRead {ns : List Node} (h : Apart ns) : joined (ns.map asRead) = asReadAll ns := by
  rw [joined, Fragment.foldl_pile _ (apart_map_asRead h) (fun a ha => by cases ha), List.append_nil,
    List.reverse_reverse, asReadAll_eq, List.filter_map]
  simp only [Function.comp_def, isEmptyText_asRead]

theorem not_hasEndTag_nil (name : Text) : ¬Element.HasEndTag name [] := by
  rintro ⟨spelled, blanks, -, -, h⟩
  simpa using List.infix_nil.1 h

theorem hasEndTag_iff {name t : Text} :
    Element.HasEndTag name t ↔ ∃ s ∈ t.tails, (Span.afterEndTag? name s).isSome = true := by
  constructor
  · rintro ⟨spelled, blanks, hs, hb, u, v, rfl⟩
    refine ⟨'<' :: '/' :: spelled ++ blanks ++ '>' :: v, (List.mem_tails _ _).2 ⟨u, by simp⟩, ?_⟩
    exact Option.isSome_iff_exists.2 ⟨v, Span.afterEndTag?_eq_some_iff.2 ⟨spelled, blanks, hs, hb, rfl⟩⟩
  · rintro ⟨s, hs, h⟩
    obtain ⟨u, rfl⟩ := (List.mem_tails _ _).1 hs
    obtain ⟨rest, hrest⟩ := Option.isSome_iff_exists.1 h
    obtain ⟨spelled, blanks, hsp, hb, rfl⟩ := Span.afterEndTag?_eq_some_iff.1 hrest
    exact ⟨spelled, blanks, hsp, hb, u, rest, by simp⟩

instance (name t : Text) : Decidable (Element.HasEndTag name t) := decidable_of_iff _ hasEndTag_iff.symm

theorem rawClosed_element {name : Text} {as : List (Attribute Text)} {cs : List Node} :
    RawClosed (.element name as cs) ↔
      (Element.isRawText name = true → ∀ c ∈ cs, ¬Element.HasEndTag name c.ownText) := by
  refine imp_congr_right fun _ => ⟨fun h c hc => ?_, fun h t ht => h _ ht⟩
  cases c with
  | text t => exact h t hc
  | element => exact not_hasEndTag_nil name
  | comment => exact not_hasEndTag_nil name

instance : DecidablePred RawClosed
  | .element _ _ _ => decidable_of_iff _ rawClosed_element.symm
  | .text _ => .isTrue trivial
  | .comment _ => .isTrue trivial

theorem exists_rawText {name : Text} {as : List (Attribute Text)} {cs : List Node} (h : Element.Fits name as cs)
    (hr : Element.isRawText name = true) (hc : RawClosed (.element name as cs)) :
    ∃ t, writeAll true cs = t ∧ asReadAll cs = (if t.isEmpty then [] else [.text t]) ∧ ¬Element.HasEndTag name t := by
  rcases h.rawText hr with rfl | ⟨t, rfl⟩
  · exact ⟨[], rfl, rfl, not_hasEndTag_nil name⟩
  · refine ⟨t, by simp [writeAll, write], ?_, hc hr t (List.mem_singleton_self _)⟩
    cases t <;> rfl

/-- **A sound tree is written as closed markup**, and what the markup adds is the tree as it is read. -/
theorem closed_write (n : Node) (hs : n.Each Sound) (hc : n.Each RawClosed) :
    Text.Closed (n.write false) [n.asRead] := by
  induction n with
  | element name as cs ih =>
    obtain ⟨hfit, hscs⟩ := each_element.1 hs
    obtain ⟨hraw, hccs⟩ := each_element.1 hc
    intro f y
    rw [write, asRead_element]
    change _ = (f.add _).read y
    -- void elements, raw text and all others are each read in a way of their own
    by_cases hv : Element.isVoid name = true
    · rw [if_pos hv, hfit.void hv, Fragment.read_span f (by simp [writeStart]) (Span.read_writeStart hfit y),
        Span.ofTag, if_pos hv]
      rfl
    · have hv : Element.isVoid name = false := by simpa using hv
      rw [if_neg (by simp [hv]), List.append_assoc, List.append_assoc]
      by_cases hr : Element.isRawText name = true
      · obtain ⟨t, ht, hread, hend⟩ := exists_rawText hfit hr hraw
        rw [hr, ht, hread, Fragment.read_rawText f hfit hv hr hend]
      · have hr : Element.isRawText name = false := by simpa using hr
        have hcs := Text.closed_writeAll fun c hcm => ih c hcm (hscs c hcm) (hccs c hcm)
        rw [hr, Fragment.read_writeStart f hfit hv hr, hcs, Fragment.extend_open, Fragment.read_writeEnd f hfit.isName,
          ← joined_map_asRead hfit.apart]
        rfl
  | text t => exact Text.closed_escapeText t
  | comment t =>
    intro f y
    rw [Fragment.read_span f (by simp [write]) (Span.read_comment (each_comment.1 hs) y)]
    rfl

/-! ## Parsing -/

theorem parse_of_closed {x : Text} {ns : List Node} (h : Text.Closed x ns) :
    parse x = .element Element.root [] (joined ns) := by
  have hr := h Fragment.empty []
  rw [List.append_nil, Fragment.read_nil, Fragment.empty, Fragment.extend_root] at hr
  change (Fragment.read ⟨[], []⟩ x).toNode = _
  rw [hr]
  rfl

theorem closed_inner {cs : List Node} (hs : (element Element.root [] cs).Each Sound)
    (hc : (element Element.root [] cs).Each RawClosed) :
    Text.Closed (element Element.root [] cs).inner (cs.map asRead) := by
  have hroot : Element.isRawText Element.root = false := by decide
  rw [inner, hroot]
  exact Text.closed_writeAll fun c hcm => closed_write c ((each_element.1 hs).2 c hcm) ((each_element.1 hc).2 c hcm)

/-- **What is written below the root is read as the tree it was written from.** -/
theorem parse_inner {cs : List Node} (hs : (element Element.root [] cs).Each Sound)
    (hc : (element Element.root [] cs).Each RawClosed) :
    parse (element Element.root [] cs).inner = (element Element.root [] cs).asRead := by
  rw [parse_of_closed (closed_inner hs hc), joined_map_asRead (each_element.1 hs).1.apart]
  rfl

end Node
end SafeMarkup
