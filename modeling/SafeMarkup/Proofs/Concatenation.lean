import SafeMarkup.Proofs.Composition
/-!
# Markup behind written markup

A fragment that was read and written leaves nothing open, so what is written behind it is read as if it stood alone.
Below the nodes of the one the other is built by the same steps (`Fragment.read_above`), and the two rows of nodes meet
in at most one text (`Node.parse_inner_parse_append`).
-/
namespace SafeMarkup

namespace Fragment

variable {before : List Node}

/-- The fragment with nodes before all it holds, the last of which stands first. -/
def above (before : List Node) (f : Fragment) : Fragment := { f with children := f.children.foldr addChild before }

theorem foldr_addChild (n : Node) (cs : List Node) :
    (addChild n cs).foldr addChild before = addChild n (cs.foldr addChild before) := by
  rcases addChild_cases n cs with ⟨t, s, rest, rfl, rfl, hadd⟩ | ⟨-, hadd⟩
  · rw [hadd, List.foldr_cons, List.foldr_cons, addChild_text_text]
  · rw [hadd, List.foldr_cons]

theorem add_above (n : Node) (f : Fragment) : (f.above before).add n = (f.add n).above before := by
  obtain ⟨path, cs⟩ := f
  cases path with
  | nil => exact congrArg (Fragment.mk []) (foldr_addChild n cs).symm
  | cons e path => rfl

theorem closeOne_above (f : Fragment) : (f.above before).closeOne = f.closeOne.above before := by
  obtain ⟨path, cs⟩ := f
  cases path with
  | nil => rfl
  | cons e path => exact add_above _ ⟨path, cs⟩

theorem repeat_closeOne_above (f : Fragment) :
    ∀ k, Nat.repeat closeOne k (f.above before) = (Nat.repeat closeOne k f).above before
  | 0 => rfl
  | k + 1 => by
    rw [Nat.repeat, repeat_closeOne_above f k, closeOne_above]
    rfl

/-- **One token is read alike**, whatever stands before the fragment. -/
theorem step_above (f : Fragment) (tok : Token Text) : (f.above before).step tok = (f.step tok).above before := by
  cases tok with
  | doctype t => rfl
  | comment t => exact add_above _ f
  | text t =>
    rw [step, step]
    split
    · rfl
    · exact add_above _ f
  | endTag name => exact repeat_closeOne_above f _
  | startTag name as selfClosing =>
    cases selfClosing with
    | true => exact add_above _ f
    | false => rfl

/-- **A text is read alike**, whatever stands before the fragment. -/
theorem read_above (f : Fragment) (t : Text) : (f.above before).read t = (f.read t).above before := by
  rw [read, read]
  generalize tokens t = ts
  induction ts generalizing f with
  | nil => rfl
  | cons tok ts ih => rw [List.foldl_cons, List.foldl_cons, step_above, ih]

end Fragment

namespace Node

/-- The nodes with others behind them.  A text that ends the one and a text that begins the others are one text. -/
def followedBy (ns ms : List Node) : List Node :=
  match ns.getLast?, ms with
  | some (.text s), .text t :: ms => ns.dropLast ++ .text (s ++ t) :: ms
  | _, _ => ns ++ ms

example : followedBy [.comment [], .text ['a']] [.text ['b'], .comment []] =
    [.comment [], .text ['a', 'b'], .comment []] := rfl

theorem followedBy_nil (ns : List Node) : followedBy ns [] = ns := by
  unfold followedBy
  split
  · rename_i h
    cases h
  · exact List.append_nil ns

theorem followedBy_of_apart {ns : List Node} {m : Node} (h : ∀ a ∈ ns.getLast?, ¬(a.isText = true ∧ m.isText = true))
    (ms : List Node) : followedBy ns (m :: ms) = ns ++ m :: ms := by
  unfold followedBy
  split
  · rename_i hlast he
    obtain ⟨rfl, -⟩ := List.cons.inj he
    exact absurd ⟨rfl, rfl⟩ (h _ hlast)
  · rfl

theorem followedBy_text (ns ms : List Node) (s t : Text) :
    followedBy (ns ++ [.text s]) (.text t :: ms) = ns ++ .text (s ++ t) :: ms := by
  simp only [followedBy, List.getLast?_concat, List.dropLast_concat]

/-- The node that was added last is a text if and only if what was added is one. -/
theorem isText_of_mem_head?_addChild {n a : Node} {before : List Node}
    (h : a ∈ (Fragment.addChild n before).head?) : a.isText = n.isText := by
  rcases Fragment.addChild_cases n before with ⟨t, s, rest, rfl, rfl, hadd⟩ | ⟨-, hadd⟩
  · rw [hadd] at h
    obtain rfl := Option.some.inj h
    rfl
  · rw [hadd] at h
    obtain rfl := Option.some.inj h
    rfl

theorem foldl_addChild_of_apart : ∀ {ns before : List Node}, Apart ns →
    (∀ a ∈ before.head?, ∀ b ∈ ns.head?, ¬(a.isText = true ∧ b.isText = true)) →
    ns.foldl (fun before n => Fragment.addChild n before) before = ns.reverse ++ before
  | [], _, _, _ => rfl
  | n :: ns, before, h, h0 => by
    obtain ⟨hn, hns⟩ := List.isChain_cons.1 h
    have hadd : Fragment.addChild n before = n :: before := by
      rcases Fragment.addChild_cases n before with ⟨t, s, rest, rfl, rfl, -⟩ | ⟨-, hadd⟩
      · exact absurd ⟨rfl, rfl⟩ (h0 _ rfl _ rfl)
      · exact hadd
    rw [List.foldl_cons, hadd, List.reverse_cons, List.append_assoc]
    exact foldl_addChild_of_apart hns fun a ha b hb => by
      obtain rfl := Option.some.inj ha
      exact hn b hb

/-- **Adding nodes behind others puts the two rows in one**, which meet in at most one text. -/
theorem reverse_foldr_addChild {ns ms : List Node} (hms : Apart ms) :
    (ms.reverse.foldr Fragment.addChild ns.reverse).reverse = followedBy ns ms := by
  cases ms with
  | nil =>
    rw [followedBy_nil]
    exact List.reverse_reverse ns
  | cons m ms =>
    obtain ⟨hm, hms⟩ := List.isChain_cons.1 hms
    -- only the first of the added nodes can meet a text
    have hrest : ms.foldl (fun before n => Fragment.addChild n before) (Fragment.addChild m ns.reverse) =
        ms.reverse ++ Fragment.addChild m ns.reverse :=
      foldl_addChild_of_apart hms fun a ha b hb hab => hm b hb ⟨isText_of_mem_head?_addChild ha ▸ hab.1, hab.2⟩
    rw [List.foldr_reverse, List.foldl_cons, hrest, List.reverse_append, List.reverse_reverse]
    rcases Fragment.addChild_cases m ns.reverse with ⟨t, s, before, rfl, hns, hadd⟩ | ⟨hapart, hadd⟩
    · have hns : ns = before.reverse ++ [.text s] := by rw [← List.reverse_reverse ns, hns, List.reverse_cons]
      rw [hadd, hns, followedBy_text, List.reverse_cons, List.append_assoc]
      rfl
    · rw [List.head?_reverse] at hapart
      rw [hadd, followedBy_of_apart hapart, List.reverse_cons, List.reverse_reverse, List.append_assoc]
      rfl

/-! ## Two texts in a row -/

/-- Nodes that were read, added to an empty fragment, are all it holds. -/
theorem extend_empty_children_parse (x : Text) :
    Fragment.empty.extend (parse x).children = Fragment.empty.above (parse x).children.reverse := by
  have hfull : (parse x).children.filter (!·.isEmptyText) = (parse x).children := by
    apply List.filter_eq_self.2
    intro c hc
    have hparsed := (Template.each_parsed_children_parse x c hc).self
    rw [hparsed.full]
    rfl
  rw [Fragment.empty, Fragment.extend_root,
    Fragment.foldl_pile _ (Template.apart_children_parse x) (fun a ha => by cases ha), hfull, List.append_nil]
  rfl

theorem toNode_above (f : Fragment) (ns : List Node) (h : Apart f.toNode.children) :
    (f.above ns.reverse).toNode = .element Element.root [] (followedBy ns f.toNode.children) := by
  have hclosed : Nat.repeat Fragment.closeOne (f.above ns.reverse).path.length (f.above ns.reverse) =
      (Nat.repeat Fragment.closeOne f.path.length f).above ns.reverse :=
    Fragment.repeat_closeOne_above f f.path.length
  rw [Fragment.toNode, hclosed, ← reverse_foldr_addChild h]
  simp only [Fragment.toNode, children, List.reverse_reverse]
  rfl

/-- **Written markup never changes how what follows it is read.**  The nodes of both texts stand in a row, in which a
text that ends the first and a text that begins the second are one. -/
theorem parse_inner_parse_append (u y : Text) :
    parse ((parse u).inner ++ y) =
      .element Element.root [] (followedBy (parse (parse u).inner).children (parse y).children) := by
  have hread : parse ((parse u).inner ++ y) = (Fragment.empty.read ((parse u).inner ++ y)).toNode := rfl
  have hbelow : Fragment.empty.read ((parse u).inner ++ y) =
      (Fragment.empty.read y).above (parse (parse u).inner).children.reverse := by
    rw [(Text.Finished.written u).closed, extend_empty_children_parse, Fragment.read_above]
  rw [hread, hbelow]
  exact toNode_above _ _ (Template.apart_children_parse y)

end Node
end SafeMarkup
