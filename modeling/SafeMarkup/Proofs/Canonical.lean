import SafeMarkup.Proofs.Reading
/-!
# Canonical trees

What was read once is written and read again as it is, but for attributes without a value, which have the empty one
from then on (`Node.parse_inner_parse`).  A tree of any origin comes back as it is if and only if it is canonical: it is
like a tree that was read, and all its attributes have a value (`Node.parse_inner_eq_self_iff`).
-/
namespace SafeMarkup

namespace Attribute

def HasValue (a : Attribute Text) : Prop := a.value.isSome = true

theorem hasValue_valued (a : Attribute Text) : a.valued.HasValue := rfl

theorem HasValue.valued_eq_self {a : Attribute Text} (h : a.HasValue) : a.valued = a := by
  obtain ⟨v, hv⟩ := Option.isSome_iff_exists.1 h
  obtain ⟨name, value⟩ := a
  obtain rfl : value = some v := hv
  rfl

end Attribute

namespace Node

/-- A node without a bare attribute. -/
def AllValued (n : Node) : Prop := ∀ a ∈ n.attributes, a.HasValue

/-- What each node of a tree is like that comes back as it is from being written and read. -/
structure Canonical (n : Node) : Prop extends Parsed n where
  valued : n.AllValued

/-! ## The empty value in the place of none -/

theorem valuedAll_eq_map : ∀ ns : List Node, valuedAll ns = ns.map valued
  | [] => rfl
  | n :: ns => by rw [valuedAll, valuedAll_eq_map ns, List.map_cons]

theorem asReadAll_eq_map {ns : List Node} (h : ∀ n ∈ ns, n.isEmptyText = false) : asReadAll ns = ns.map asRead := by
  have hfilter : ns.filter (!·.isEmptyText) = ns := by
    apply List.filter_eq_self.2
    intro n hn
    rw [h n hn]
    rfl
  rw [asReadAll_eq, hfilter]

/-- **Of a tree without empty texts all is read again.** -/
theorem asRead_eq_valued (n : Node) (h : n.Each Parsed) : n.asRead = n.valued := by
  induction n with
  | element name as cs ih =>
    obtain ⟨-, hcs⟩ := each_element.1 h
    have hfull : ∀ c ∈ cs, c.isEmptyText = false := fun c hc => (hcs c hc).self.full
    have hread : cs.map asRead = cs.map valued := List.map_congr_left fun c hc => ih c hc (hcs c hc)
    rw [asRead_element, asReadAll_eq_map hfull, hread, valued, valuedAll_eq_map]
  | text t => rfl
  | comment t => rfl

theorem each_allValued_valued (n : Node) : n.valued.Each AllValued := by
  induction n with
  | element name as cs ih =>
    rw [valued, valuedAll_eq_map, each_element]
    constructor
    · intro a ha
      obtain ⟨b, -, rfl⟩ := List.mem_map.1 ha
      exact b.hasValue_valued
    · intro c hc
      obtain ⟨d, hd, rfl⟩ := List.mem_map.1 hc
      exact ih d hd
  | text t =>
    rw [valued, each_text]
    intro a ha
    cases ha
  | comment t =>
    rw [valued, each_comment]
    intro a ha
    cases ha

theorem valued_eq_self (n : Node) (h : n.Each AllValued) : n.valued = n := by
  induction n with
  | element name as cs ih =>
    obtain ⟨has, hcs⟩ := each_element.1 h
    have hattributes : as.map Attribute.valued = as := by
      conv => rhs; rw [← List.map_id as]
      exact List.map_congr_left fun a ha => (has a ha).valued_eq_self
    have hchildren : cs.map valued = cs := by
      conv => rhs; rw [← List.map_id cs]
      exact List.map_congr_left fun c hc => ih c hc (hcs c hc)
    rw [valued, valuedAll_eq_map, hattributes, hchildren]
  | text t => rfl
  | comment t => rfl

/-! ## Writing and reading again -/

theorem exists_parse_eq (t : Text) : ∃ cs, parse t = .element Element.root [] cs := ⟨_, rfl⟩

/-- A tree below the root that is like one that was read. -/
theorem parse_inner_of_each_parsed {cs : List Node} (h : (element Element.root [] cs).Each Parsed) :
    parse (element Element.root [] cs).inner = (element Element.root [] cs).valued := by
  have hsound : (element Element.root [] cs).Each Sound := fun m hm => (h m hm).sound
  have hclosed : (element Element.root [] cs).Each RawClosed := fun m hm => (h m hm).rawClosed
  rw [parse_inner hsound hclosed, asRead_eq_valued _ h]

theorem parse_inner_parse_eq (t : Text) : parse (parse t).inner = (parse t).valued := by
  have hparsed := each_parsed_parse t
  obtain ⟨cs, hcs⟩ := exists_parse_eq t
  rw [hcs] at hparsed ⊢
  exact parse_inner_of_each_parsed hparsed

theorem inner_valued (t : Text) : (parse t).valued.inner = (parse t).inner := by
  rw [← asRead_eq_valued _ (each_parsed_parse t), inner_asRead]

/-- **Reading and writing reach a fixed point after one round**, on any text.  The second reading gives the first tree
again, with the empty value in every attribute that had none. -/
theorem parse_inner_parse (t : Text) :
    parse (parse t).inner = (parse t).valued ∧ (parse (parse t).inner).inner = (parse t).inner := by
  have hparse := parse_inner_parse_eq t
  refine ⟨hparse, ?_⟩
  rw [hparse, inner_valued]

/-- **A tree comes back from being written and read if and only if it is canonical.** -/
theorem parse_inner_eq_self_iff (cs : List Node) :
    parse (element Element.root [] cs).inner = element Element.root [] cs ↔
      (element Element.root [] cs).Each Canonical := by
  constructor
  · intro h
    have hparsed := each_parsed_parse (element Element.root [] cs).inner
    have hvalued := parse_inner_parse_eq (element Element.root [] cs).inner
    have hall := each_allValued_valued (parse (element Element.root [] cs).inner)
    rw [← hvalued, h, h] at hall
    rw [h] at hparsed
    exact fun m hm => ⟨hparsed m hm, hall m hm⟩
  · intro h
    have hparsed : (element Element.root [] cs).Each Parsed := fun m hm => (h m hm).toParsed
    have hall : (element Element.root [] cs).Each AllValued := fun m hm => (h m hm).valued
    rw [parse_inner_of_each_parsed hparsed, valued_eq_self _ hall]

end Node
end SafeMarkup
