import SafeMarkup.Markup.Node.Walk
import SafeMarkup.Proofs.ArenaBuild
/-!
# Walks in document order

A node has one address in its tree, the child indexes on the way to it, and document order is the lexicographic order of
addresses: a node stands before what is below it, and what is below a child before what is below the next one.  A walk
meets the nodes in this order, each once (`Node.map_at?_addresses`, `Walk.nodes_eq`), and the text of a built tree is the
text of its tokens, however the elements are nested (`Node.collectedText_ofTokens`).
-/
namespace SafeMarkup

namespace Walk

/-- **A walk meets what is pending and all below it**, in document order. -/
theorem nodes_eq (w : Walk) : w.nodes = Node.descendantsAll w.pending := by
  induction w using nodes.induct with
  | case1 w h =>
    obtain ⟨pending⟩ := w
    cases pending with
    | nil => rw [nodes]; rfl
    | cons n pending => rw [next?_cons] at h; cases h
  | case2 w n w' h ih =>
    obtain ⟨pending⟩ := w
    cases pending with
    | nil => cases h
    | cons m pending =>
      rw [next?_cons] at h
      obtain ⟨rfl, rfl⟩ := Prod.mk.inj (Option.some.inj h)
      rw [nodes, next?_cons]
      dsimp only
      rw [ih, Node.descendantsAll_append, Node.descendantsAll]
      cases m <;> rfl

end Walk

namespace Node

theorem walked_eq (n : Node) : n.walked = n.descendants := by
  rw [walked, Walk.nodes_eq, Walk.start, descendantsAll, descendantsAll, List.append_nil]

theorem foldl_collect : ∀ (ns : List Node) (out : Text), ns.foldl collect out = out ++ ns.flatMap ownText
  | [], out => (List.append_nil out).symm
  | n :: ns, out => by
    rw [List.foldl_cons, foldl_collect ns, List.flatMap_cons, ← List.append_assoc]
    cases n <;> simp [collect, ownText]

/-- The text that is collected is the text found on the way. -/
theorem collectedText_eq (n : Node) : n.collectedText = n.textContent := by
  rw [collectedText, foldl_collect, walked_eq]
  rfl

/-! ## Addresses -/

/-- The node at an address. -/
def at? : List Nat → Node → Option Node
  | [], n => some n
  | i :: p, n => n.children[i]?.bind (at? p)

mutual

/-- The addresses of a node and of all below it. -/
def addresses : Node → List (List Nat)
  | .element _ _ cs => [] :: addressesAll 0 cs
  | .text _ => [[]]
  | .comment _ => [[]]

/-- The addresses of neighbours, of which the first has the index `i`, and of all below them. -/
def addressesAll (i : Nat) : List Node → List (List Nat)
  | [] => []
  | n :: ns => n.addresses.map (i :: ·) ++ addressesAll (i + 1) ns

end

theorem mem_addressesAll {p : List Nat} : ∀ {ns : List Node} {i : Nat}, p ∈ addressesAll i ns ↔
    ∃ j n q, ns[j]? = some n ∧ q ∈ n.addresses ∧ p = (i + j) :: q
  | [], i => by simp [addressesAll]
  | n :: ns, i => by
    rw [addressesAll, List.mem_append, mem_addressesAll, List.mem_map]
    constructor
    · rintro (⟨q, hq, rfl⟩ | ⟨j, m, q, hm, hq, rfl⟩)
      · exact ⟨0, n, q, rfl, hq, rfl⟩
      · exact ⟨j + 1, m, q, hm, hq, by rw [Nat.add_right_comm, Nat.add_assoc]⟩
    · rintro ⟨j, m, q, hm, hq, rfl⟩
      cases j with
      | zero =>
        obtain rfl := Option.some.inj hm
        exact .inl ⟨q, hq, rfl⟩
      | succ j => exact .inr ⟨j, m, q, hm, hq, by rw [Nat.add_right_comm, Nat.add_assoc]⟩

/-- **The addresses are those at which a node stands.** -/
theorem mem_addresses_iff (n : Node) : ∀ p : List Nat, p ∈ n.addresses ↔ (at? p n).isSome = true := by
  induction n with
  | element name as cs ih =>
    intro p
    rw [addresses, List.mem_cons, mem_addressesAll]
    cases p with
    | nil => simp [at?]
    | cons i p =>
      rw [at?, children]
      constructor
      · rintro (h | ⟨j, c, q, hc, hq, h⟩)
        · cases h
        · obtain ⟨rfl, rfl⟩ := List.cons.inj h
          rw [Nat.zero_add, hc]
          exact (ih c (List.mem_of_getElem? hc) p).1 hq
      · intro h
        obtain ⟨c, hc⟩ : ∃ c, cs[i]? = some c := by
          cases hc : cs[i]? with
          | none => rw [hc] at h; cases h
          | some c => exact ⟨c, rfl⟩
        rw [hc] at h
        exact .inr ⟨i, c, p, hc, (ih c (List.mem_of_getElem? hc) p).2 h, by rw [Nat.zero_add]⟩
  | text t => intro p; cases p <;> simp [addresses, at?, children]
  | comment t => intro p; cases p <;> simp [addresses, at?, children]

theorem pairwise_addressesAll {ns : List Node} (h : ∀ n ∈ ns, n.addresses.Pairwise (· < ·)) :
    ∀ i, (addressesAll i ns).Pairwise (· < ·) := by
  induction ns with
  | nil => exact fun i => .nil
  | cons n ns ih =>
    intro i
    obtain ⟨hn, hns⟩ := List.forall_mem_cons.1 h
    rw [addressesAll, List.pairwise_append]
    refine ⟨List.pairwise_map.2 (hn.imp fun hlt => List.cons_lt_cons_iff.2 (.inr ⟨rfl, hlt⟩)), ih hns (i + 1), ?_⟩
    intro p hp q hq
    obtain ⟨p, -, rfl⟩ := List.mem_map.1 hp
    obtain ⟨j, m, q, -, -, rfl⟩ := mem_addressesAll.1 hq
    exact List.cons_lt_cons_iff.2 (.inl (by omega))

/-- **Addresses stand in lexicographic order**, so each stands once. -/
theorem pairwise_addresses (n : Node) : n.addresses.Pairwise (· < ·) := by
  induction n with
  | element name as cs ih =>
    rw [addresses, List.pairwise_cons]
    refine ⟨fun p hp => ?_, pairwise_addressesAll ih 0⟩
    obtain ⟨j, c, q, -, -, rfl⟩ := mem_addressesAll.1 hp
    exact List.nil_lt_cons _ _
  | text t => exact List.pairwise_singleton ..
  | comment t => exact List.pairwise_singleton ..

theorem map_at?_addressesAll {ns : List Node} (h : ∀ n ∈ ns, n.addresses.map (at? · n) = n.descendants.map some)
    (name : Text) (as : List (Attribute Text)) : ∀ before : List Node,
      (addressesAll before.length ns).map (at? · (.element name as (before ++ ns))) = (descendantsAll ns).map some := by
  induction ns with
  | nil => exact fun before => rfl
  | cons n ns ih =>
    intro before
    obtain ⟨hn, hns⟩ := List.forall_mem_cons.1 h
    have hrest := ih hns (before ++ [n])
    rw [List.length_append, List.length_singleton, List.append_assoc, List.singleton_append] at hrest
    have hfirst : ∀ p, at? (before.length :: p) (.element name as (before ++ n :: ns)) = at? p n := fun p => by
      simp [at?, children]
    rw [addressesAll, descendantsAll, List.map_append, List.map_append, List.map_map, hrest, ← hn]
    exact congrArg (· ++ _) (List.map_congr_left fun p _ => hfirst p)

/-- **Document order is the order of addresses.** -/
theorem map_at?_addresses (n : Node) : n.addresses.map (at? · n) = n.descendants.map some := by
  induction n with
  | element name as cs ih =>
    rw [addresses, descendants, List.map_cons, List.map_cons]
    exact congrArg _ (map_at?_addressesAll ih name as [])
  | text t => rfl
  | comment t => rfl

/-! ## The text of a built tree -/

theorem additive_ownText : Additive ownText fun _ => True where
  element _ _ _ := rfl
  nil := rfl
  append _ _ := rfl
  closed _ _ := trivial

theorem given_ownText (tok : Token Text) : tok.given ownText = tok.content := by cases tok <;> rfl

/-- **A tree holds the text of its tokens**, in their order. -/
theorem collectedText_ofTokens (ts : List (Token Text)) : (ofTokens ts).collectedText = ts.flatMap Token.content := by
  have hgather := gather_ofTokens additive_ownText fun t (_ : Token.text t ∈ ts) => trivial
  rw [collectedText_eq, textContent]
  exact hgather.trans (List.flatMap_congr fun tok _ => given_ownText tok)

end Node

namespace TokenStream

theorem content_of_token? {table : NameTable} {tok : Token Nat} {tok' : Token Text} (h : token? table tok = some tok') :
    tok'.content = tok.content := by
  cases tok with
  | doctype t => obtain rfl := Option.some.inj h; rfl
  | comment t => obtain rfl := Option.some.inj h; rfl
  | text t => obtain rfl := Option.some.inj h; rfl
  | endTag i =>
    obtain ⟨name, -, rfl⟩ := Option.map_eq_some_iff.1 h
    rfl
  | startTag i as selfClosing =>
    simp only [token?, Option.bind_eq_bind, Option.bind_eq_some_iff] at h
    obtain ⟨name, -, as, -, h⟩ := h
    obtain rfl := Option.some.inj h
    rfl

theorem content_of_mapM_token? {table : NameTable} {ts : List (Token Nat)} {ts' : List (Token Text)}
    (h : ts.mapM (token? table) = some ts') : ts'.flatMap Token.content = ts.flatMap Token.content := by
  rw [mapM_eq_some_iff] at h
  induction h with
  | nil => rfl
  | cons ht _ ih => rw [List.flatMap_cons, List.flatMap_cons, content_of_token? ht, ih]

/-- **A walk is the tree in document order, and building keeps the text.**  A walk meets the nodes that stand in the tree
by the order of their addresses, each once, as the recursive listing has them, and collects their texts in this order.
A stream whose numbers are in its table has a tree, and the text collected from it is that of the stream's tokens. -/
theorem walked_exact (n : Node) {s : TokenStream} {ts : List (Token Text)} (h : s.toTokens? = some ts) :
    (n.walked = n.descendants ∧
      (∃ addresses : List (List Nat), addresses.Pairwise (· < ·) ∧
        (∀ p, p ∈ addresses ↔ (Node.at? p n).isSome = true) ∧ addresses.map (Node.at? · n) = n.walked.map some) ∧
      n.collectedText = n.walked.flatMap Node.ownText) ∧
    ∃ root, s.build? = some root ∧ root.collectedText = s.tokens.flatMap Token.content := by
  refine ⟨⟨n.walked_eq, ⟨n.addresses, n.pairwise_addresses, n.mem_addresses_iff, ?_⟩, ?_⟩, ?_⟩
  · rw [n.walked_eq, n.map_at?_addresses]
  · rw [n.collectedText_eq, n.walked_eq, Node.textContent]
  · refine ⟨_, build?_of_toTokens? h, ?_⟩
    rw [Node.collectedText_ofTokens, content_of_mapM_token? h]

/-- Texts in misnested elements, around a comment and a stray end tag. -/
theorem walked_exact_misnested :
    let s : TokenStream := ⟨[.startTag 0 [] false, .text ['x'], .startTag 1 [] false, .text ['y'], .endTag 0, .endTag 1,
      .text ['z'], .comment ['c'], .text ['w']], ⟨[['p'], ['b']]⟩⟩
    (∃ ts, s.toTokens? = some ts) ∧ ∃ root, s.build? = some root ∧ root.collectedText = ['x', 'y', 'z', 'w'] :=
  ⟨⟨_, rfl⟩, (walked_exact (.text []) rfl).2⟩

end TokenStream
end SafeMarkup
