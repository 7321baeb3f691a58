import SafeMarkup.Proofs.ReadBack
/-!
# Trees of related tokens

Building a tree looks at names of tags and at whether a text is empty, and puts texts together; of all else in the
tokens it decides nothing.  So tokens whose texts are related, by any relation that allows for that, build trees whose
texts are (`Node.related_ofTokens`).
-/
namespace SafeMarkup

/-- A relation of texts that putting texts together keeps, and by which only an empty text is related to an empty
one. -/
structure TextRelation (R : Text → Text → Prop) : Prop where
  append : ∀ {s s' t t' : Text}, R s s' → R t t' → R (s ++ t) (s' ++ t')
  isEmpty : ∀ {t t' : Text}, R t t' → t.isEmpty = t'.isEmpty

section

variable {α β : Type} {R : α → β → Prop} {o : Option α} {o' : Option β}

theorem isSome_eq_of_rel (h : Option.Rel R o o') : o.isSome = o'.isSome := by
  cases h with
  | none => rfl
  | some _ => rfl

theorem rel_getD (h : Option.Rel R o o') {a : α} {b : β} (hab : R a b) : R (o.getD a) (o'.getD b) := by
  cases h with
  | none => exact hab
  | some hr => exact hr

end

section

variable (R : Text → Text → Prop)

structure Attribute.Related (a b : Attribute Text) : Prop where
  name : R a.name b.name
  value : Option.Rel R a.value b.value

/-- Tokens of one kind, with the same names of tags.  A doctype leaves no trace in a tree. -/
inductive Token.Related : Token Text → Token Text → Prop where
  | doctype (t t' : Text) : Related (.doctype t) (.doctype t')
  | startTag {name : Text} {as bs : List (Attribute Text)} {selfClosing : Bool}
      (has : List.Forall₂ (Attribute.Related R) as bs) :
      Related (.startTag name as selfClosing) (.startTag name bs selfClosing)
  | endTag (name : Text) : Related (.endTag name) (.endTag name)
  | comment {t t' : Text} (h : R t t') : Related (.comment t) (.comment t')
  | text {t t' : Text} (h : R t t') : Related (.text t) (.text t')

inductive Node.Related : Node → Node → Prop where
  | element {name : Text} {as bs : List (Attribute Text)} {cs ds : List Node}
      (has : List.Forall₂ (Attribute.Related R) as bs) (hcs : List.Forall₂ Related cs ds) :
      Related (.element name as cs) (.element name bs ds)
  | text {t t' : Text} (h : R t t') : Related (.text t) (.text t')
  | comment {t t' : Text} (h : R t t') : Related (.comment t) (.comment t')

structure OpenElement.Related (e e' : OpenElement) : Prop where
  name : e.name = e'.name
  attributes : List.Forall₂ (Attribute.Related R) e.attributes e'.attributes
  children : List.Forall₂ (Node.Related R) e.children e'.children

structure Fragment.Related (f f' : Fragment) : Prop where
  path : List.Forall₂ (OpenElement.Related R) f.path f'.path
  children : List.Forall₂ (Node.Related R) f.children f'.children

end

variable {R : Text → Text → Prop}

namespace Fragment

theorem related_empty : Related R empty empty := ⟨.nil, .nil⟩

theorem related_addChild (hR : TextRelation R) {n n' : Node} {ns ns' : List Node} (hn : n.Related R n')
    (hns : List.Forall₂ (Node.Related R) ns ns') : List.Forall₂ (Node.Related R) (addChild n ns) (addChild n' ns') := by
  cases hn with
  | element has hcs => exact .cons (.element has hcs) hns
  | comment h => exact .cons (.comment h) hns
  | text h =>
    -- only a text behind a text goes on with it
    cases hns with
    | nil => exact .cons (.text h) .nil
    | cons ha hbefore =>
      cases ha with
      | text hs => exact .cons (.text (hR.append hs h)) hbefore
      | element has hcs => exact .cons (.text h) (.cons (.element has hcs) hbefore)
      | comment hc => exact .cons (.text h) (.cons (.comment hc) hbefore)

theorem related_add (hR : TextRelation R) {f f' : Fragment} {n n' : Node} (hf : f.Related R f')
    (hn : n.Related R n') : (f.add n).Related R (f'.add n') := by
  obtain ⟨path, cs⟩ := f
  obtain ⟨path', cs'⟩ := f'
  obtain ⟨hpath, hcs⟩ := hf
  cases hpath with
  | nil => exact ⟨.nil, related_addChild hR hn hcs⟩
  | cons he hpath => exact ⟨.cons ⟨he.name, he.attributes, related_addChild hR hn he.children⟩ hpath, hcs⟩

theorem related_closeOne (hR : TextRelation R) {f f' : Fragment} (hf : f.Related R f') :
    f.closeOne.Related R f'.closeOne := by
  obtain ⟨path, cs⟩ := f
  obtain ⟨path', cs'⟩ := f'
  obtain ⟨hpath, hcs⟩ := hf
  cases hpath with
  | nil => exact ⟨.nil, hcs⟩
  | @cons e e' path path' he hpath =>
    have helement : (Node.element e.name e.attributes e.children.reverse).Related R
        (.element e'.name e'.attributes e'.children.reverse) := by
      rw [he.name]
      exact .element he.attributes (List.forall₂_reverse_iff.2 he.children)
    exact related_add hR ⟨hpath, hcs⟩ helement

theorem related_repeat_closeOne (hR : TextRelation R) {f f' : Fragment} (hf : f.Related R f') :
    ∀ k, (Nat.repeat closeOne k f).Related R (Nat.repeat closeOne k f')
  | 0 => hf
  | k + 1 => related_closeOne hR (related_repeat_closeOne hR hf k)

theorem depth?_eq (name : Text) {f f' : Fragment} (hf : f.Related R f') : f.depth? name = f'.depth? name := by
  have hfind : f.path.findIdx? (Text.sameFolded ·.name name) = f'.path.findIdx? (Text.sameFolded ·.name name) := by
    have hpath := hf.path
    generalize f.path = path at hpath
    generalize f'.path = path' at hpath
    induction hpath with
    | nil => rfl
    | cons he _ ih => rw [List.findIdx?_cons, List.findIdx?_cons, he.name, ih]
  rw [depth?, depth?, hfind]

/-- **One token keeps fragments related.** -/
theorem related_step (hR : TextRelation R) {f f' : Fragment} {tok tok' : Token Text} (hf : f.Related R f')
    (ht : tok.Related R tok') : (f.step tok).Related R (f'.step tok') := by
  cases ht with
  | doctype t t' => exact hf
  | comment h => exact related_add hR hf (.comment h)
  | text h =>
    rw [step, step, ← hR.isEmpty h]
    split
    · exact hf
    · exact related_add hR hf (.text h)
  | endTag name =>
    rw [step, step, close, close, ← depth?_eq name hf]
    exact related_repeat_closeOne hR hf _
  | @startTag name as bs selfClosing has =>
    rw [step, step]
    split
    · exact related_add hR hf (.element has .nil)
    · exact ⟨.cons ⟨rfl, has, .nil⟩ hf.path, hf.children⟩

theorem related_foldl_step (hR : TextRelation R) {ts ts' : List (Token Text)}
    (hts : List.Forall₂ (Token.Related R) ts ts') {f f' : Fragment} (hf : f.Related R f') :
    (ts.foldl step f).Related R (ts'.foldl step f') := by
  induction hts generalizing f f' with
  | nil => exact hf
  | cons ht _ ih => exact ih (related_step hR hf ht)

end Fragment

/-- **Related tokens build related trees.** -/
theorem Node.related_ofTokens (hR : TextRelation R) {ts ts' : List (Token Text)}
    (hts : List.Forall₂ (Token.Related R) ts ts') : (ofTokens ts).Related R (ofTokens ts') := by
  have hf := Fragment.related_foldl_step hR hts Fragment.related_empty
  have hclosed := Fragment.related_repeat_closeOne hR hf (ts.foldl Fragment.step Fragment.empty).path.length
  rw [ofTokens, ofTokens, Fragment.toNode, Fragment.toNode, ← hf.path.length_eq]
  exact .element .nil (List.forall₂_reverse_iff.2 hclosed.children)

end SafeMarkup
