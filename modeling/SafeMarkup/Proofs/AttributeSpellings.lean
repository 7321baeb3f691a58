import SafeMarkup.Proofs.Numbering
import SafeMarkup.Proofs.TagGrammar
/-!
# Start tags as authors write them

An attribute is written as a bare name, or with a value in double quotes, in single quotes or in none, and blanks may
stand around its `=`.  However the attributes of a tag are written, each is read as its name in lower case and its value
decoded, the first of each name stays, and reading goes on right behind the tag (`SpelledTag.toTokens?_read_text`).
-/
namespace SafeMarkup

/-- What follows the name of an attribute. -/
inductive Spelling where
  | bare
  /-- A value between two quotes, with what stands before and behind the `=`. -/
  | quoted (before behind : Text) (quote : Char) (value : Text)
  | unquoted (before behind value : Text)

namespace Spelling

def value? : Spelling → Option Text
  | bare => none
  | quoted _ _ _ v => some v
  | unquoted _ _ v => some v

def text : Spelling → Text
  | bare => []
  | quoted before behind q v => before ++ '=' :: (behind ++ q :: (v ++ [q]))
  | unquoted before behind v => before ++ '=' :: (behind ++ v)

/-- Only blanks stand around the `=`, and nothing in the value would end it. -/
def Fits : Spelling → Prop
  | bare => True
  | quoted before behind q v => Text.Blank before ∧ Text.Blank behind ∧ (q = '"' ∨ q = '\'') ∧ q ∉ v
  | unquoted before behind v =>
    Text.Blank before ∧ Text.Blank behind ∧ v ≠ [] ∧ (v.head? ≠ some '"' ∧ v.head? ≠ some '\'') ∧
      ∀ c ∈ v, Text.isBlank c = false ∧ c ≠ '>'

instance : (s : Spelling) → Decidable s.Fits
  | bare => inferInstanceAs (Decidable True)
  | quoted before behind q v =>
    inferInstanceAs (Decidable (Text.Blank before ∧ Text.Blank behind ∧ (q = '"' ∨ q = '\'') ∧ q ∉ v))
  | unquoted before behind v =>
    letI := List.decidableBAll (fun c => Text.isBlank c = false ∧ c ≠ '>') v
    inferInstanceAs (Decidable (Text.Blank before ∧ Text.Blank behind ∧ v ≠ [] ∧
      (v.head? ≠ some '"' ∧ v.head? ≠ some '\'') ∧ ∀ c ∈ v, Text.isBlank c = false ∧ c ≠ '>'))

end Spelling

/-- An attribute with the blanks before it. -/
structure SpelledAttribute where
  blanks : Text
  name : Text
  spelling : Spelling

namespace SpelledAttribute

def text (a : SpelledAttribute) : Text := a.blanks ++ (a.name ++ a.spelling.text)

/-- What the attribute is read as. -/
def asRead (a : SpelledAttribute) : Attribute Text := ⟨Text.fold a.name, a.spelling.value?.map Reference.decode⟩

structure Fits (a : SpelledAttribute) : Prop where
  blanks : Text.Blank a.blanks
  apart : a.blanks ≠ []
  isName : Element.isAttributeSpelling a.name = true
  spelling : a.spelling.Fits

instance (a : SpelledAttribute) : Decidable a.Fits :=
  decidable_of_iff (Text.Blank a.blanks ∧ a.blanks ≠ [] ∧ Element.isAttributeSpelling a.name = true ∧ a.spelling.Fits)
    ⟨fun h => ⟨h.1, h.2.1, h.2.2.1, h.2.2.2⟩, fun h => ⟨h.blanks, h.apart, h.isName, h.spelling⟩⟩

end SpelledAttribute

/-- A start tag with the blanks behind its last attribute; it ends with `/>` or with `>`. -/
structure SpelledTag where
  name : Text
  attributes : List SpelledAttribute
  blanks : Text
  slashed : Bool

namespace SpelledTag

def ending (slashed : Bool) : Text := if slashed then ['/', '>'] else ['>']

/-- The tag behind its name. -/
def inside (t : SpelledTag) : Text := t.attributes.flatMap SpelledAttribute.text ++ (t.blanks ++ ending t.slashed)

def text (t : SpelledTag) : Text := '<' :: (t.name ++ t.inside)

structure Fits (t : SpelledTag) : Prop where
  isName : Element.isTagSpelling t.name = true
  attributes : ∀ a ∈ t.attributes, a.Fits
  blanks : Text.Blank t.blanks
  apart : t.attributes ≠ [] → t.blanks ≠ []

/-- What the attributes are read as: of those with one name in lower case, the first. -/
def kept (t : SpelledTag) : List (Attribute Text) :=
  (t.attributes.map SpelledAttribute.asRead).eraseDupsBy fun a b => a.name == b.name

def selfClosing (t : SpelledTag) : Bool := t.slashed || Element.isVoid (Text.fold t.name)

end SpelledTag

/-! ## The first of each name -/

namespace Attribute

theorem keepFirst_filter (p : Text → Bool) : ∀ as : List (Attribute Text),
    keepFirst (as.filter (p ·.name)) = (keepFirst as).filter (p ·.name)
  | [] => rfl
  | a :: as => by
    cases hp : p a.name with
    | true =>
      rw [List.filter_cons_of_pos (p := fun b : Attribute Text => p b.name) hp, keepFirst, keepFirst, keepFirst_filter p as,
        List.filter_cons_of_pos (p := fun b : Attribute Text => p b.name) hp, List.filter_filter, List.filter_filter]
      simp only [Bool.and_comm]
    | false =>
      have hne : ¬p a.name = true := by simp [hp]
      rw [List.filter_cons_of_neg (p := fun b : Attribute Text => p b.name) hne, keepFirst, keepFirst_filter p as,
        List.filter_cons_of_neg (p := fun b : Attribute Text => p b.name) hne, List.filter_filter]
      -- an attribute that `p` keeps does not have the name of `a`, which `p` drops
      refine List.filter_congr fun b _ => ?_
      cases hb : p b.name with
      | false => rfl
      | true =>
        have hba : b.name ≠ a.name := by
          intro he
          exact hne (he ▸ hb)
        simp [hba]

/-- **Of the attributes with one name the first stays.** -/
theorem keepFirst_eq_eraseDupsBy : ∀ as : List (Attribute Text),
    keepFirst as = as.eraseDupsBy fun a b => a.name == b.name
  | [] => rfl
  | a :: as => by
    have hrest : (as.filter fun b => decide ((b.name == a.name) = false)) = as.filter (·.name != a.name) :=
      List.filter_congr fun b _ => by cases h : b.name == a.name <;> simp [bne, h]
    rw [List.eraseDupsBy_cons, hrest, ← keepFirst_eq_eraseDupsBy (as.filter (·.name != a.name)), keepFirst,
      keepFirst_filter (· != a.name)]
termination_by as => as.length
decreasing_by
  simp only [List.length_cons]
  exact Nat.lt_succ_of_le (List.length_filter_le _ _)

end Attribute

/-! ## Written tags in the grammar -/

/-- What may follow an attribute: a blank, and no `=` behind the blanks. -/
structure Text.Separates (t : Text) : Prop where
  blank : ∃ c u, t = c :: u ∧ isBlank c = true
  equals : (skipBlanks t).head? ≠ some '='

theorem Text.separates_append {b t : Text} {c : Char} (hb : Blank b) (hne : b ≠ []) (hc : isBlank c = false) (he : c ≠ '=') :
    Separates (b ++ c :: t) where
  blank := by
    obtain ⟨d, b, rfl⟩ := List.exists_cons_of_ne_nil hne
    exact ⟨d, b ++ c :: t, rfl, hb d (List.mem_cons_self ..)⟩
  equals := by
    rw [skipBlanks_append hb, skipBlanks_cons hc, List.head?_cons]
    exact fun h => he (Option.some.inj h)

namespace SpelledAttribute

/-- An attribute is spelled as the grammar says, if it is separated from what follows. -/
theorem Fits.spells {a : SpelledAttribute} (h : a.Fits) {t : Text} (ht : Text.Separates t) :
    Attribute.Spells (a.name ++ (a.spelling.text ++ t)) a.asRead t := by
  obtain ⟨blanks, name, spelling⟩ := a
  obtain ⟨c, u, rfl, hc⟩ := ht.blank
  have hn := h.isName
  have hs := h.spelling
  cases spelling with
  | bare =>
    refine .bare hn (fun d hd => ?_) ht.equals
    obtain rfl := Option.some.inj hd
    exact Element.isAttributeChar_of_isBlank hc
  | quoted before behind q v =>
    obtain ⟨hbefore, hbehind, hq, hv⟩ := hs
    have hspells := Attribute.Spells.valued hn hbefore (.quoted (r := c :: u) hbehind hq hv)
    simp only [Spelling.text, List.append_assoc, List.cons_append, List.nil_append]
    exact hspells
  | unquoted before behind v =>
    obtain ⟨hbefore, hbehind, hne, hstart, hv⟩ := hs
    have hvalue : Attribute.IsValue (behind ++ (v ++ c :: u)) v (c :: u) := by
      refine .bare hbehind (fun d hd => ?_) hv ?_ (.inr (.inl ⟨c, u, rfl, .inl hc⟩))
      · obtain ⟨e, w, rfl⟩ := List.exists_cons_of_ne_nil hne
        obtain rfl := Option.some.inj hd
        exact ⟨(hv _ (List.mem_cons_self ..)).1, by simpa using hstart⟩
      · rintro ⟨-, hd⟩
        obtain rfl := Option.some.inj hd
        cases hc
    have hspells := Attribute.Spells.valued hn hbefore hvalue
    simp only [Spelling.text, List.append_assoc, List.cons_append]
    exact hspells

end SpelledAttribute

namespace SpelledTag

theorem spells_ending (slashed : Bool) (z : Text) : Tag.Spells (ending slashed ++ z) ⟨[], slashed, z⟩ := by
  cases slashed with
  | true => exact .slash z
  | false => exact .close z

theorem exists_ending_cons (slashed : Bool) (z : Text) :
    ∃ c u, ending slashed ++ z = c :: u ∧ Text.isBlank c = false ∧ c ≠ '=' ∧ Element.isNameChar c = false := by
  cases slashed with
  | true => exact ⟨'/', _, rfl, by decide⟩
  | false => exact ⟨'>', _, rfl, by decide⟩

/-- Each attribute is separated from what follows it, the next attribute or the end of the tag. -/
theorem separates_inside {b : Text} (slashed : Bool) (z : Text) (hb : Text.Blank b) (hne : b ≠ []) :
    ∀ {as : List SpelledAttribute}, (∀ a ∈ as, a.Fits) →
      Text.Separates (as.flatMap SpelledAttribute.text ++ (b ++ (ending slashed ++ z)))
  | [], _ => by
    obtain ⟨c, u, hend, hc, he, -⟩ := exists_ending_cons slashed z
    rw [List.flatMap_nil, List.nil_append, hend]
    exact Text.separates_append hb hne hc he
  | a :: as, h => by
    have ha := h a (List.mem_cons_self ..)
    obtain ⟨hnne, hchars⟩ := Element.isAttributeSpelling_iff.1 ha.isName
    obtain ⟨c, n, hname⟩ := List.exists_cons_of_ne_nil hnne
    have hc := hchars c (hname ▸ List.mem_cons_self ..)
    have he : c ≠ '=' := by
      rintro rfl
      cases hc
    simp only [List.flatMap_cons, SpelledAttribute.text, hname, List.append_assoc, List.cons_append]
    exact Text.separates_append ha.blanks ha.apart (Tag.isBlank_of_isAttributeChar hc).1 he

/-- **Attributes in any spelling are the attributes of the tag**, one by one. -/
theorem spells_attributes {b : Text} (slashed : Bool) (z : Text) (hb : Text.Blank b) :
    ∀ {as : List SpelledAttribute}, (∀ a ∈ as, a.Fits) → (as ≠ [] → b ≠ []) →
      Tag.Spells (as.flatMap SpelledAttribute.text ++ (b ++ (ending slashed ++ z)))
        ⟨as.map SpelledAttribute.asRead, slashed, z⟩
  | [], _, _ => by
    rw [List.flatMap_nil, List.nil_append]
    exact (spells_ending slashed z).blanks hb
  | a :: as, h, hne => by
    obtain ⟨ha, has⟩ := List.forall_mem_cons.1 h
    have hne : b ≠ [] := hne (List.cons_ne_nil a as)
    have hspells := ha.spells (separates_inside slashed z hb hne has)
    have hrest := spells_attributes slashed z hb has fun _ => hne
    simp only [List.flatMap_cons, SpelledAttribute.text, List.append_assoc]
    exact (Tag.Spells.cons hspells hrest).blanks ha.blanks

variable {t : SpelledTag}

theorem Fits.spells (h : t.Fits) (z : Text) :
    Tag.Spells (t.inside ++ z) ⟨t.attributes.map SpelledAttribute.asRead, t.slashed, z⟩ := by
  simp only [inside, List.append_assoc]
  exact spells_attributes t.slashed z h.blanks h.attributes h.apart

/-- The name ends where the inside of the tag begins. -/
theorem Fits.isNameChar_head? (h : t.Fits) (z : Text) : ∀ c ∈ (t.inside ++ z).head?, Element.isNameChar c = false := by
  by_cases has : t.attributes = []
  · obtain ⟨d, u, hend, -, -, hd⟩ := exists_ending_cons t.slashed z
    rw [inside, has, List.flatMap_nil, List.nil_append, List.append_assoc, hend]
    exact Text.forall_head?_append h.blanks (fun _ hb => Element.isNameChar_of_isBlank hb) hd
  · obtain ⟨d, u, hd, hblank⟩ := (separates_inside t.slashed z h.blanks (h.apart has) h.attributes).blank
    rw [inside, List.append_assoc, List.append_assoc, hd]
    rintro c ⟨⟩
    exact Element.isNameChar_of_isBlank hblank

/-- **A start tag is read back from any spelling of it.**  Its attributes come in order, of each name in lower case the
first, with its value decoded if it has one; it closes itself if it ends with `/>` or is void; and reading goes on right
behind it. -/
theorem toTokens?_read_text (h : t.Fits) (z : Text) :
    (TokenStream.read (t.text ++ z)).toTokens? =
      let behind := Span.behindTag (Text.fold t.name) t.selfClosing z
      some (.startTag (Text.fold t.name) t.kept t.selfClosing :: (behind.tokens ++ tokens behind.rest)) := by
  have hread := Span.read_of_spells h.isName (h.isNameChar_head? z) (h.spells z)
  have htext : t.text ++ z = '<' :: (t.name ++ (t.inside ++ z)) := by simp [text]
  rw [TokenStream.toTokens?_read, htext, tokens_cons, hread, Attribute.keepFirst_eq_eraseDupsBy]
  rfl

theorem toTokens?_read_text_repeated :
    (TokenStream.read "<Img A = \"x>y\"\n\ta='z' b=u/v=w c />".toList).toTokens? =
      some [.startTag ['i', 'm', 'g'] [⟨['a'], some (Reference.decode ['x', '>', 'y'])⟩,
        ⟨['b'], some (Reference.decode ['u', '/', 'v', '=', 'w'])⟩, ⟨['c'], none⟩] true] := by
  have h := toTokens?_read_text (t := ⟨['I', 'm', 'g'],
    [⟨[' '], ['A'], .quoted [' '] [' '] '"' ['x', '>', 'y']⟩, ⟨['\n', '\t'], ['a'], .quoted [] [] '\'' ['z']⟩,
      ⟨[' '], ['b'], .unquoted [] [] ['u', '/', 'v', '=', 'w']⟩, ⟨[' '], ['c'], .bare⟩], [' '], true⟩)
    ⟨by decide, by decide, by decide, by decide⟩ []
  refine h.trans ?_
  change some (_ :: ([] ++ tokens [])) = _
  rw [tokens_nil]
  rfl

end SpelledTag
end SafeMarkup
