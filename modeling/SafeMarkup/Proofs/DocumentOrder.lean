import SafeMarkup.Proofs.ReadBack
/-!
# Document order

A tree is built at the end only: what its nodes give, gathered in document order, is what the tokens give that it was
built from, in their order (`Node.gather_ofTokens`).  Elements may be closed by any end tag or by none, and neighbouring
texts become one.
-/
namespace SafeMarkup

variable {β : Type}

/-- What is found at a node and can be found token by token: at an element it does not depend on what the element holds,
and at a text it is what its parts give.  `P` is what is known of all texts. -/
structure Additive (m : Node → List β) (P : Text → Prop) : Prop where
  element : ∀ name as cs, m (.element name as cs) = m (.element name as [])
  nil : m (.text []) = []
  append : ∀ {s t}, P s → P t → m (.text (s ++ t)) = m (.text s) ++ m (.text t)
  closed : ∀ {s t}, P s → P t → P (s ++ t)

/-- What is found at the node that a token gives. -/
def Token.given (m : Node → List β) : Token Text → List β
  | .startTag name as _ => m (.element name as [])
  | .comment t => m (.comment t)
  | .text t => m (.text t)
  | .endTag _ => []
  | .doctype _ => []

namespace Node

/-- What is found in a tree, in document order. -/
def gather (m : Node → List β) (n : Node) : List β := n.descendants.flatMap m

def gatherAll (m : Node → List β) (ns : List Node) : List β := (descendantsAll ns).flatMap m

theorem gather_element (m : Node → List β) (name : Text) (as : List (Attribute Text)) (cs : List Node) :
    gather m (.element name as cs) = m (.element name as cs) ++ gatherAll m cs := by
  rw [gather, descendants, List.flatMap_cons, gatherAll]

theorem gather_text (m : Node → List β) (t : Text) : gather m (.text t) = m (.text t) := List.flatMap_singleton ..

theorem gather_comment (m : Node → List β) (t : Text) : gather m (.comment t) = m (.comment t) :=
  List.flatMap_singleton ..

theorem gatherAll_cons (m : Node → List β) (n : Node) (ns : List Node) :
    gatherAll m (n :: ns) = gather m n ++ gatherAll m ns := by
  rw [gatherAll, descendantsAll, List.flatMap_append, gather, gatherAll]

theorem gatherAll_eq_flatMap (m : Node → List β) : ∀ ns : List Node, gatherAll m ns = ns.flatMap (gather m)
  | [] => rfl
  | n :: ns => by rw [gatherAll_cons, gatherAll_eq_flatMap m ns, List.flatMap_cons]

theorem gatherAll_append (m : Node → List β) (ns ms : List Node) :
    gatherAll m (ns ++ ms) = gatherAll m ns ++ gatherAll m ms := by
  rw [gatherAll, descendantsAll_append, List.flatMap_append, gatherAll, gatherAll]

theorem gatherAll_reverse_cons (m : Node → List β) (n : Node) (before : List Node) :
    gatherAll m (n :: before).reverse = gatherAll m before.reverse ++ gather m n := by
  rw [List.reverse_cons, gatherAll_append, gatherAll_cons]
  exact congrArg _ (List.append_nil _)

end Node

/-- A property of the texts among some nodes. -/
def AllTexts (P : Text → Prop) (ns : List Node) : Prop := ∀ t, .text t ∈ ns → P t

namespace Fragment

open Node

variable {m : Node → List β} {P : Text → Prop}

/-- What is found at an open element and in what it holds so far. -/
def gatherOpen (m : Node → List β) (e : OpenElement) : List β :=
  m (.element e.name e.attributes []) ++ gatherAll m e.children.reverse

/-- What is found in a fragment, in document order. -/
def gathered (m : Node → List β) (f : Fragment) : List β :=
  gatherAll m f.children.reverse ++ f.path.reverse.flatMap (gatherOpen m)

/-- What is known of the texts that may still grow. -/
structure Texts (P : Text → Prop) (f : Fragment) : Prop where
  children : AllTexts P f.children
  path : ∀ e ∈ f.path, AllTexts P e.children

theorem gatherAll_addChild (h : Additive m P) {n : Node} {before : List Node} (hn : AllTexts P [n])
    (hb : AllTexts P before) :
    gatherAll m (addChild n before).reverse = gatherAll m before.reverse ++ gather m n := by
  rcases addChild_cases n before with ⟨t, s, before, rfl, rfl, hadd⟩ | ⟨-, hadd⟩
  · have hs := hb s (List.mem_cons_self ..)
    have ht := hn t (List.mem_singleton_self _)
    rw [hadd, gatherAll_reverse_cons, gatherAll_reverse_cons, gather_text, gather_text, gather_text, h.append hs ht,
      List.append_assoc]
  · rw [hadd]
    exact gatherAll_reverse_cons m n before

theorem allTexts_cons {n : Node} {ns : List Node} (hn : AllTexts P [n]) (hns : AllTexts P ns) :
    AllTexts P (n :: ns) := by
  intro t ht
  rcases List.mem_cons.1 ht with ht | ht
  · exact hn t (List.mem_singleton.2 ht)
  · exact hns t ht

theorem allTexts_text {t : Text} (h : P t) : AllTexts P [.text t] := by
  intro s hs
  obtain rfl := Node.text.inj (List.mem_singleton.1 hs)
  exact h

theorem allTexts_addChild (h : Additive m P) {n : Node} {before : List Node} (hn : AllTexts P [n])
    (hb : AllTexts P before) : AllTexts P (addChild n before) := by
  rcases addChild_cases n before with ⟨t, s, before, rfl, rfl, hadd⟩ | ⟨-, hadd⟩
  · have hs := hb s (List.mem_cons_self ..)
    have ht := hn t (List.mem_singleton_self _)
    rw [hadd]
    exact allTexts_cons (allTexts_text (h.closed hs ht)) fun u hu => hb u (List.mem_cons_of_mem _ hu)
  · rw [hadd]
    exact allTexts_cons hn hb

theorem gathered_cons (e : OpenElement) (path : List OpenElement) (cs : List Node) :
    gathered m ⟨e :: path, cs⟩ = gathered m ⟨path, cs⟩ ++ gatherOpen m e := by
  rw [gathered, gathered, List.reverse_cons, List.flatMap_append, List.flatMap_singleton, List.append_assoc]

/-- **A node is added at the end.** -/
theorem gathered_add (h : Additive m P) {f : Fragment} {n : Node} (hf : f.Texts P) (hn : AllTexts P [n]) :
    (f.add n).gathered m = f.gathered m ++ gather m n := by
  obtain ⟨path, cs⟩ := f
  cases path with
  | nil =>
    simp only [add, gathered, List.reverse_nil, List.flatMap_nil, List.append_nil]
    exact gatherAll_addChild h hn hf.children
  | cons e path =>
    have he := hf.path e (List.mem_cons_self ..)
    change gathered m ⟨{ e with children := addChild n e.children } :: path, cs⟩ = _
    rw [gathered_cons, gathered_cons, gatherOpen, gatherOpen, gatherAll_addChild h hn he]
    simp only [List.append_assoc]

theorem texts_add (h : Additive m P) {f : Fragment} {n : Node} (hf : f.Texts P) (hn : AllTexts P [n]) :
    (f.add n).Texts P := by
  obtain ⟨path, cs⟩ := f
  cases path with
  | nil => exact ⟨allTexts_addChild h hn hf.children, hf.path⟩
  | cons e path =>
    obtain ⟨he, hpath⟩ := List.forall_mem_cons.1 hf.path
    exact ⟨hf.children, List.forall_mem_cons.2 ⟨allTexts_addChild h hn he, hpath⟩⟩

theorem allTexts_element (name : Text) (as : List (Attribute Text)) (cs : List Node) :
    AllTexts P [.element name as cs] := by simp [AllTexts]

/-- **Closing an element moves nothing.** -/
theorem gathered_closeOne (h : Additive m P) {f : Fragment} (hf : f.Texts P) :
    f.closeOne.gathered m = f.gathered m ∧ f.closeOne.Texts P := by
  obtain ⟨path, cs⟩ := f
  cases path with
  | nil => exact ⟨rfl, hf⟩
  | cons e path =>
    have hf' : Texts P ⟨path, cs⟩ := ⟨hf.children, (List.forall_mem_cons.1 hf.path).2⟩
    refine ⟨?_, texts_add h hf' (allTexts_element _ _ _)⟩
    rw [gathered_cons, gatherOpen, ← h.element _ _ e.children.reverse, ← gather_element]
    exact gathered_add h hf' (allTexts_element _ _ _)

theorem gathered_repeat_closeOne (h : Additive m P) {f : Fragment} (hf : f.Texts P) :
    ∀ k, (Nat.repeat closeOne k f).gathered m = f.gathered m ∧ (Nat.repeat closeOne k f).Texts P
  | 0 => ⟨rfl, hf⟩
  | k + 1 => by
    obtain ⟨hk, htexts⟩ := gathered_repeat_closeOne h hf k
    obtain ⟨hone, htexts⟩ := gathered_closeOne h htexts
    exact ⟨hone.trans hk, htexts⟩

/-- **What a token gives is found behind all else.** -/
theorem gathered_step (h : Additive m P) {f : Fragment} {tok : Token Text} (hf : f.Texts P)
    (ht : ∀ t, tok = .text t → P t) :
    (f.step tok).gathered m = f.gathered m ++ tok.given m ∧ (f.step tok).Texts P := by
  cases tok with
  | doctype t => exact ⟨(List.append_nil _).symm, hf⟩
  | comment t =>
    have hn : AllTexts P [.comment t] := by simp [AllTexts]
    exact ⟨by rw [step, gathered_add h hf hn, gather_comment]; rfl, texts_add h hf hn⟩
  | text t =>
    have hn : AllTexts P [.text t] := allTexts_text (ht t rfl)
    rw [step]
    cases t with
    | nil =>
      rw [if_pos (by rfl), Token.given, h.nil, List.append_nil]
      exact ⟨rfl, hf⟩
    | cons c t =>
      rw [if_neg (by simp), Token.given, ← gather_text m]
      exact ⟨gathered_add h hf hn, texts_add h hf hn⟩
  | endTag name =>
    rw [step, Token.given, List.append_nil]
    exact gathered_repeat_closeOne h hf _
  | startTag name as selfClosing =>
    cases selfClosing with
    | true =>
      refine ⟨?_, texts_add h hf (allTexts_element _ _ _)⟩
      rw [step, if_pos rfl, gathered_add h hf (allTexts_element _ _ _), gather_element]
      exact congrArg _ (List.append_nil _)
    | false =>
      refine ⟨?_, hf.children, List.forall_mem_cons.2 ⟨by simp [AllTexts], hf.path⟩⟩
      rw [step, if_neg Bool.false_ne_true, gathered_cons, gatherOpen]
      exact congrArg _ (List.append_nil _)

theorem gathered_foldl_step (h : Additive m P) : ∀ (ts : List (Token Text)) {f : Fragment}, f.Texts P →
    (∀ t, .text t ∈ ts → P t) →
    (ts.foldl step f).gathered m = f.gathered m ++ ts.flatMap (Token.given m) ∧ (ts.foldl step f).Texts P
  | [], f, hf, _ => ⟨(List.append_nil _).symm, hf⟩
  | tok :: ts, f, hf, ht => by
    obtain ⟨hstep, htexts⟩ := gathered_step h hf fun t he => ht t (he ▸ List.mem_cons_self ..)
    obtain ⟨hfold, htexts⟩ := gathered_foldl_step h ts htexts fun t hm => ht t (List.mem_cons_of_mem _ hm)
    refine ⟨?_, htexts⟩
    rw [List.foldl_cons, hfold, hstep, List.append_assoc, List.flatMap_cons]

theorem length_path_closeOne (f : Fragment) : f.closeOne.path.length = f.path.length - 1 := by
  obtain ⟨path, cs⟩ := f
  match path with
  | [] => rfl
  | [e] => rfl
  | e :: e' :: path => rfl

theorem length_path_repeat_closeOne (f : Fragment) :
    ∀ k, (Nat.repeat closeOne k f).path.length = f.path.length - k
  | 0 => rfl
  | k + 1 => by
    rw [Nat.repeat, length_path_closeOne, length_path_repeat_closeOne f k, Nat.sub_sub]

/-- Nothing is open when every element has been closed. -/
theorem path_repeat_closeOne_length (f : Fragment) : (Nat.repeat closeOne f.path.length f).path = [] := by
  rw [← List.length_eq_zero_iff, length_path_repeat_closeOne, Nat.sub_self]

end Fragment

/-- **A tree holds what its tokens gave, in their order.** -/
theorem Node.gather_ofTokens {m : Node → List β} {P : Text → Prop} (h : Additive m P) {ts : List (Token Text)}
    (ht : ∀ t, .text t ∈ ts → P t) :
    (ofTokens ts).gather m = m (.element Element.root [] []) ++ ts.flatMap (Token.given m) := by
  have hempty : Fragment.empty.Texts P := ⟨by simp [Fragment.empty, AllTexts], by simp [Fragment.empty]⟩
  obtain ⟨hfold, htexts⟩ := Fragment.gathered_foldl_step h ts hempty ht
  rw [ofTokens, Fragment.toNode]
  generalize ts.foldl Fragment.step Fragment.empty = f at hfold htexts ⊢
  have hclosed := (Fragment.gathered_repeat_closeOne h htexts f.path.length).1
  rw [Fragment.gathered, f.path_repeat_closeOne_length, List.reverse_nil, List.flatMap_nil, List.append_nil] at hclosed
  rw [gather_element, h.element, hclosed, hfold]
  rfl

end SafeMarkup
