import SafeMarkup.Markup.Node.Written
import SafeMarkup.Markup.Span
import Mathlib
/-!
# The shape of trees

What a tree must be like to be markup at all: names that a tag can have, void elements empty, raw-text elements holding
one text at most, no two texts side by side (`Node.Sound`), and no raw text holding an end tag of its element
(`Node.RawClosed`).  Both speak of one node; `Node.Each` carries them over a tree.  `Node.asRead` is what is left of such
a tree once it has been written: attributes without a value have the empty one, and empty texts are gone.
-/
namespace SafeMarkup

namespace Element

/-- The names of tags in lower case. -/
def isName : Text → Bool
  | [] => false
  | c :: t => c.isLower && t.all fun d => isNameChar d && !d.isUpper

/-- The names of tags as they may be spelled. -/
def isTagSpelling : Text → Bool
  | [] => false
  | c :: t => c.isAlpha && t.all isNameChar

/-- The names of attributes as they may be spelled. -/
def isAttributeSpelling (name : Text) : Bool := !name.isEmpty && name.all isAttributeChar

/-- The names of attributes in lower case. -/
def isAttributeName (name : Text) : Bool := !name.isEmpty && name.all fun c => isAttributeChar c && !c.isUpper

/-- Whether an end tag of an element stands in a text, in any case and with blanks before its `>`. -/
def HasEndTag (name t : Text) : Prop :=
  ∃ spelled blanks, Text.sameFolded spelled name = true ∧ (∀ c ∈ blanks, Text.isBlank c = true) ∧
    '<' :: '/' :: spelled ++ blanks ++ ['>'] <:+: t

end Element

namespace Attribute

def valued (a : Attribute Text) : Attribute Text := { a with value := some (a.value.getD []) }

theorem write_valued (a : Attribute Text) : a.valued.write = a.write := rfl

end Attribute

namespace Node

/-! ## Induction over a tree -/

/-- What an element inherits from its children, and texts and comments have, every node has. -/
@[elab_as_elim, induction_eliminator]
theorem induct {motive : Node → Prop}
    (element : ∀ name as cs, (∀ c ∈ cs, motive c) → motive (.element name as cs))
    (text : ∀ t, motive (.text t)) (comment : ∀ t, motive (.comment t)) (n : Node) : motive n :=
  @Node.rec motive (fun ns => ∀ c ∈ ns, motive c) element text comment (fun _ h => nomatch h)
    (fun _ _ hn hns => List.forall_mem_cons.2 ⟨hn, hns⟩) n

/-! ## A property of every node -/

def Each (P : Node → Prop) (n : Node) : Prop := ∀ m ∈ n.descendants, P m

instance {P : Node → Prop} [DecidablePred P] (n : Node) : Decidable (Each P n) :=
  inferInstanceAs (Decidable (∀ m ∈ n.descendants, P m))

theorem mem_descendantsAll {m : Node} : ∀ {cs : List Node}, m ∈ descendantsAll cs ↔ ∃ c ∈ cs, m ∈ c.descendants
  | [] => by simp [descendantsAll]
  | c :: cs => by rw [descendantsAll, List.mem_append, mem_descendantsAll]; simp

theorem each_element {P : Node → Prop} {name : Text} {as : List (Attribute Text)} {cs : List Node} :
    Each P (.element name as cs) ↔ P (.element name as cs) ∧ ∀ c ∈ cs, Each P c := by
  simp only [Each, descendants, List.forall_mem_cons, mem_descendantsAll]
  refine and_congr_right fun _ => ⟨fun h c hc m hm => h m ⟨c, hc, hm⟩, ?_⟩
  rintro h m ⟨c, hc, hm⟩
  exact h c hc m hm

@[simp] theorem each_text {P : Node → Prop} {t : Text} : Each P (.text t) ↔ P (.text t) := by simp [Each, descendants]

@[simp] theorem each_comment {P : Node → Prop} {t : Text} : Each P (.comment t) ↔ P (.comment t) := by
  simp [Each, descendants]

theorem Each.self {P : Node → Prop} {n : Node} (h : Each P n) : P n := by
  cases n with
  | element => exact (each_element.1 h).1
  | text => exact each_text.1 h
  | comment => exact each_comment.1 h

/-! ## Sound trees -/

def isText : Node → Bool
  | .text _ => true
  | _ => false

def isEmptyText : Node → Bool
  | .text [] => true
  | _ => false

theorem isText_of_isEmptyText {n : Node} (h : n.isEmptyText = true) : n.isText = true := by
  cases n with
  | text => rfl
  | element => cases h
  | comment => cases h

/-- No two texts stand side by side. -/
def Apart (ns : List Node) : Prop := ns.IsChain fun a b => ¬(a.isText = true ∧ b.isText = true)

end Node

/-- What an element's name allows it to have and to hold. -/
structure Element.Fits (name : Text) (as : List (Attribute Text)) (cs : List Node) : Prop where
  isName : isName name = true
  attributeNames : ∀ a ∈ as, isAttributeName a.name = true
  distinct : (as.map (·.name)).Nodup
  void : isVoid name = true → cs = []
  rawText : isRawText name = true → cs = [] ∨ ∃ t, cs = [.text t]
  apart : Node.Apart cs

namespace Node

/-- A node that can be written so that it is read again. -/
def Sound : Node → Prop
  | .element name as cs => Element.Fits name as cs
  | .text _ => True
  | .comment t => ¬['-', '-', '>'] <:+: t

/-- No text of a raw-text element holds an end tag of that element. -/
def RawClosed : Node → Prop
  | .element name _ cs => Element.isRawText name = true → ∀ t, .text t ∈ cs → ¬Element.HasEndTag name t
  | _ => True

/-! ## Trees as they are read again -/

mutual

/-- The tree with the empty value for every attribute without a value. -/
def valued : Node → Node
  | .element name as cs => .element name (as.map Attribute.valued) (valuedAll cs)
  | .text t => .text t
  | .comment t => .comment t

def valuedAll : List Node → List Node
  | [] => []
  | n :: ns => valued n :: valuedAll ns

end

mutual

/-- The tree without its empty texts. -/
def withoutEmpty : Node → Node
  | .element name as cs => .element name as (withoutEmptyAll cs)
  | .text t => .text t
  | .comment t => .comment t

def withoutEmptyAll : List Node → List Node
  | [] => []
  | n :: ns => if n.isEmptyText then withoutEmptyAll ns else withoutEmpty n :: withoutEmptyAll ns

end

def asRead (n : Node) : Node := n.valued.withoutEmpty

def asReadAll (ns : List Node) : List Node := withoutEmptyAll (valuedAll ns)

theorem isEmptyText_valued (n : Node) : n.valued.isEmptyText = n.isEmptyText := by
  cases n <;> simp [valued, isEmptyText]

theorem asReadAll_cons (n : Node) (ns : List Node) :
    asReadAll (n :: ns) = if n.isEmptyText then asReadAll ns else n.asRead :: asReadAll ns := by
  simp only [asReadAll, valuedAll, withoutEmptyAll, isEmptyText_valued, asRead]

theorem asReadAll_eq : ∀ ns : List Node, asReadAll ns = (ns.filter (!·.isEmptyText)).map asRead
  | [] => rfl
  | n :: ns => by
    rw [asReadAll_cons, List.filter_cons, asReadAll_eq ns]
    by_cases h : n.isEmptyText = true
    · simp [h]
    · simp [h]

theorem asRead_element (name : Text) (as : List (Attribute Text)) (cs : List Node) :
    asRead (.element name as cs) = .element name (as.map Attribute.valued) (asReadAll cs) := rfl

theorem isText_asRead (n : Node) : n.asRead.isText = n.isText := by cases n <;> rfl

theorem isEmptyText_asRead (n : Node) : n.asRead.isEmptyText = n.isEmptyText := by cases n <;> rfl

theorem write_of_isEmptyText {n : Node} (h : n.isEmptyText = true) (raw : Bool) : n.write raw = [] := by
  cases n with
  | text t =>
    cases t with
    | nil => cases raw <;> rfl
    | cons => cases h
  | element => cases h
  | comment => cases h

theorem writeAll_asReadAll_of {raw : Bool} : ∀ {ns : List Node}, (∀ n ∈ ns, n.asRead.write raw = n.write raw) →
    writeAll raw (asReadAll ns) = writeAll raw ns
  | [], _ => rfl
  | n :: ns, h => by
    obtain ⟨hn, hns⟩ := List.forall_mem_cons.1 h
    rw [asReadAll_cons, writeAll]
    split
    · rename_i he
      rw [write_of_isEmptyText he, writeAll_asReadAll_of hns, List.nil_append]
    · rw [writeAll, hn, writeAll_asReadAll_of hns]

/-- **A tree is written like the tree it is read as.** -/
theorem write_asRead (n : Node) : ∀ raw, n.asRead.write raw = n.write raw := by
  induction n with
  | element name as cs ih =>
    intro raw
    rw [asRead_element, write, write, writeAll_asReadAll_of fun c hc => ih c hc _]
    simp only [writeStart, List.flatMap_map, Attribute.write_valued]
  | text t => exact fun _ => rfl
  | comment t => exact fun _ => rfl

theorem inner_asRead (n : Node) : n.asRead.inner = n.inner := by
  cases n with
  | element name as cs => exact writeAll_asReadAll_of fun c _ => write_asRead c _
  | text t => rfl
  | comment t => rfl

end Node
end SafeMarkup
