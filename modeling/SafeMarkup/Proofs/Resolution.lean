import SafeMarkup.Proofs.EscapedMarkers
import SafeMarkup.Proofs.Reading
import SafeMarkup.Template.Basic
/-!
# What resolving a template does

Resolving is a check and a change that do not depend on each other.  The check lists the numbers of the values that
stand where markup is inserted and are texts (`Template.refusals`); the change puts the values in the place of their
markers (`Template.filled`).  The first refusal is the answer, or the changed tree if there is none (`resolve_eq`), and a
sound tree stays sound (`each_sound_filled`).
-/
namespace SafeMarkup

instance decidableEqExcept {ε α : Type} [DecidableEq ε] [DecidableEq α] : DecidableEq (Except ε α)
  | .ok a, .ok b => decidable_of_iff (a = b) (by simp)
  | .error a, .error b => decidable_of_iff (a = b) (by simp)
  | .ok _, .error _ => .isFalse nofun
  | .error _, .ok _ => .isFalse nofun

namespace Template

/-- A result, unless the list of refused values has a first one. -/
def refusing {α : Type} (refused : List Nat) (a : α) : Except Refusal α :=
  match refused with
  | [] => .ok a
  | i :: _ => .error (.untrustedMarkup i)

section Refusing

variable {α β : Type}

theorem pure_eq_refusing (a : α) : (pure a : Except Refusal α) = refusing [] a := rfl

theorem refusing_bind (is js : List Nat) (a : α) (f : α → β) :
    (refusing is a >>= fun x => refusing js (f x)) = refusing (is ++ js) (f a) := by
  cases is <;> rfl

theorem map_refusing (is : List Nat) (a : α) (f : α → β) : f <$> refusing is a = refusing is (f a) := by
  cases is <;> rfl

theorem mapM_refusing (is : α → List Nat) (f : α → β) :
    ∀ xs : List α, xs.mapM (fun x => refusing (is x) (f x)) = refusing (xs.flatMap is) (xs.map f)
  | [] => rfl
  | x :: xs => by
    rw [List.mapM_cons, mapM_refusing is f xs, List.flatMap_cons, List.map_cons]
    simp only [pure_eq_refusing, refusing_bind, List.append_nil]

theorem refusing_eq_ok {is : List Nat} {a b : α} : refusing is a = .ok b ↔ is = [] ∧ a = b := by
  cases is <;> simp [refusing]

theorem refusing_eq_error {is : List Nat} {a : α} {r : Refusal} :
    refusing is a = .error r ↔ ∃ i, is.head? = some i ∧ r = .untrustedMarkup i := by
  cases is <;> simp [refusing, eq_comm]

end Refusing

variable (nonce : Text) (values : List Interpolation)

/-- Whether the value of a number is a text. -/
def isTextAt (i : Nat) : Bool :=
  match values[i]? with
  | some (.text _) => true
  | _ => false

/-- The markup of a number, if its value is trusted. -/
def markupAt (i : Nat) : Option Text :=
  match values[i]? with
  | some (.trusted m) => some m.content
  | _ => none

theorem isTextAt_eq_true {values : List Interpolation} {i : Nat} :
    isTextAt values i = true ↔ ∃ t, values[i]? = some (.text t) := by
  unfold isTextAt
  split
  · rename_i t h
    simp [h]
  · rename_i h
    simpa using h

/-- The numbers of the texts among the values whose markers stand in a text. -/
def untrusted (t : Text) : List Nat := (Marker.indexes nonce t).filter (isTextAt values)

def spliced (t : Text) : Text := Marker.replace nonce (markupAt values) t

mutual

/-- The numbers of the texts that stand where markup is inserted, in document order. -/
def refusals : Node → List Nat
  | .element name _ cs =>
    if isSlot nonce cs then untrusted nonce values (Node.writeAll (Element.isRawText name) cs) else refusalsAll cs
  | .text _ => []
  | .comment _ => []

def refusalsAll : List Node → List Nat
  | [] => []
  | n :: ns => refusals n ++ refusalsAll ns

end

def slotContent (name : Text) (cs : List Node) : List Node :=
  content name (spliced nonce values (Node.writeAll (Element.isRawText name) cs))

mutual

/-- The tree with the values in the place of their markers, whether they are trusted or not. -/
def filled : Node → Node
  | .element name as cs =>
    .element name (as.map (fillAttribute nonce values))
      (if isSlot nonce cs then slotContent nonce values name cs else filledAll cs)
  | .text t => .text (fill nonce values t)
  | .comment t => .comment t

def filledAll : List Node → List Node
  | [] => []
  | n :: ns => filled n :: filledAll ns

end

variable {nonce values}

/-! ## Resolving is refusing or filling -/

theorem markup?_eq (i : Nat) :
    markup? values i = refusing ((some i).toList.filter (isTextAt values)) (markupAt values i) := by
  cases hv : values[i]? with
  | none => simp [markup?, isTextAt, markupAt, hv, refusing]
  | some v => cases v <;> simp [markup?, isTextAt, markupAt, hv, refusing]

theorem splice_eq (t : Text) :
    splice nonce values t = refusing (untrusted nonce values t) (spliced nonce values t) := by
  have hsplice : splice nonce values t = (do
      let parts ← (Marker.pieces nonce t).mapM fun p =>
        refusing (p.index?.toList.filter (isTextAt values)) (p.replacement nonce (p.index?.bind (markupAt values)))
      pure parts.flatten) := by
    rw [splice, Marker.replaceM]
    congr 2
    funext p
    cases p with
    | char c => rfl
    | marker digits => simp only [Marker.Piece.index?, markup?_eq, map_refusing, Option.bind_some]
  have huntrusted : (Marker.pieces nonce t).flatMap (fun p => p.index?.toList.filter (isTextAt values)) =
      untrusted nonce values t := by
    rw [untrusted, Marker.indexes, List.filterMap_eq_flatMap_toList, List.filter_flatMap]
  simp only [hsplice, mapM_refusing, huntrusted, pure_eq_refusing, refusing_bind, List.append_nil]
  rw [spliced, Marker.replace, List.flatMap_def]

mutual

/-- **Resolving a tree** refuses the first text that stands where markup is inserted, and fills the tree if there is
none. -/
theorem resolve_eq : ∀ n : Node, resolve nonce values n = refusing (refusals nonce values n) (filled nonce values n)
  | .element name as cs => by
    unfold resolve refusals filled
    split
    · simp only [splice_eq, pure_eq_refusing, refusing_bind, List.append_nil, slotContent]
    · simp only [resolveAll_eq cs, pure_eq_refusing, refusing_bind, List.append_nil]
  | .text _ => by rfl
  | .comment _ => by rfl

theorem resolveAll_eq : ∀ ns : List Node,
    resolveAll nonce values ns = refusing (refusalsAll nonce values ns) (filledAll nonce values ns)
  | [] => by rfl
  | n :: ns => by
    simp only [resolveAll, refusalsAll, filledAll, resolve_eq n, resolveAll_eq ns, pure_eq_refusing, refusing_bind,
      List.append_nil]

end

theorem render_eq {segments : List Text} (hv : values ≠ []) (hs : segments.length = values.length + 1) :
    render nonce values segments = refusing (refusals nonce values (tree nonce segments))
      ⟨(filled nonce values (tree nonce segments)).inner⟩ := by
  have hne : values.isEmpty = false := by simpa using hv
  rw [render, if_neg (by simp [hs]), if_neg (by simp [hne]), resolve_eq]
  simp only [pure_eq_refusing, refusing_bind, List.append_nil]

theorem filledAll_eq_map : ∀ ns : List Node, filledAll nonce values ns = ns.map (filled nonce values)
  | [] => rfl
  | n :: ns => by rw [filledAll, filledAll_eq_map ns, List.map_cons]

theorem refusalsAll_eq_flatMap : ∀ ns : List Node, refusalsAll nonce values ns = ns.flatMap (refusals nonce values)
  | [] => rfl
  | n :: ns => by rw [refusalsAll, refusalsAll_eq_flatMap ns, List.flatMap_cons]

theorem isSlot_eq_true {cs : List Node} :
    isSlot nonce cs = true ↔ ∃ t, cs = [.text t] ∧ Marker.isIn nonce t = true := by
  unfold isSlot
  split
  · simp
  · rename_i h
    simp only [Bool.false_eq_true, false_iff]
    rintro ⟨t, rfl, -⟩
    exact h t rfl

/-! ## A filled tree is sound -/

theorem isText_filled (n : Node) : (filled nonce values n).isText = n.isText := by cases n <;> rfl

theorem apart_map_filled {ns : List Node} (h : Node.Apart ns) : Node.Apart (ns.map (filled nonce values)) :=
  (List.isChain_map _).2 (h.imp fun a b hab => by rwa [isText_filled, isText_filled])

theorem each_parsed_children_parse (t : Text) : ∀ c ∈ (Node.parse t).children, c.Each Node.Parsed :=
  (Node.each_element.1 (Node.each_parsed_parse t)).2

theorem apart_children_parse (t : Text) : Node.Apart (Node.parse t).children :=
  (Node.each_parsed_parse t).self.sound.apart

theorem names_fillAttribute (as : List (Attribute Text)) :
    (as.map (fillAttribute nonce values)).map (·.name) = as.map (·.name) := by
  rw [List.map_map]
  rfl

theorem Fits.fill {name : Text} {as : List (Attribute Text)} {cs ds : List Node} (h : Element.Fits name as cs)
    (hvoid : Element.isVoid name = true → ds = [])
    (hraw : Element.isRawText name = true → ds = [] ∨ ∃ t, ds = [.text t]) (hapart : Node.Apart ds) :
    Element.Fits name (as.map (fillAttribute nonce values)) ds where
  isName := h.isName
  attributeNames a ha := by
    obtain ⟨b, hb, rfl⟩ := List.mem_map.1 ha
    exact h.attributeNames b hb
  distinct := by
    rw [names_fillAttribute]
    exact h.distinct
  void := hvoid
  rawText := hraw
  apart := hapart

theorem content_of_isRawText {name : Text} (hr : Element.isRawText name = true) (t : Text) :
    content name t = [.text t] := if_pos hr

theorem apart_content (name t : Text) : Node.Apart (content name t) := by
  unfold content
  split
  · exact .singleton _
  · exact apart_children_parse t

theorem each_sound_content (name t : Text) : ∀ c ∈ content name t, c.Each Node.Sound := by
  intro c hc
  unfold content at hc
  split at hc
  · obtain rfl := List.mem_singleton.1 hc
    exact Node.each_text.2 trivial
  · exact fun m hm => (each_parsed_children_parse t c hc m hm).sound

/-- **Filling keeps a tree sound.** -/
theorem each_sound_filled (n : Node) (h : n.Each Node.Sound) : (filled nonce values n).Each Node.Sound := by
  induction n with
  | element name as cs ih =>
    obtain ⟨hfit, hcs⟩ := Node.each_element.1 h
    rw [filled, Node.each_element]
    by_cases hslot : isSlot nonce cs = true
    · obtain ⟨t, rfl, -⟩ := isSlot_eq_true.1 hslot
      rw [if_pos hslot, slotContent]
      refine ⟨Fits.fill hfit (fun hv => nomatch hfit.void hv) (fun hr => ?_) (apart_content name _), ?_⟩
      · exact .inr ⟨_, content_of_isRawText hr _⟩
      · exact each_sound_content name _
    · rw [if_neg hslot, filledAll_eq_map]
      refine ⟨Fits.fill hfit (fun hv => ?_) (fun hr => ?_) (apart_map_filled hfit.apart), fun c hc => ?_⟩
      · rw [hfit.void hv]
        rfl
      · rcases hfit.rawText hr with rfl | ⟨t, rfl⟩
        · exact .inl rfl
        · exact .inr ⟨_, rfl⟩
      · obtain ⟨d, hd, rfl⟩ := List.mem_map.1 hc
        exact ih d hd (hcs d hd)
  | text t => exact Node.each_text.2 trivial
  | comment t => exact h

/-! ## What filling leaves as it is -/

theorem replace_congr {f g : Nat → Option Text} {t : Text} (h : ∀ i ∈ Marker.indexes nonce t, f i = g i) :
    Marker.replace nonce f t = Marker.replace nonce g t := by
  rw [Marker.replace, Marker.replace, List.flatMap_def, List.flatMap_def]
  refine congrArg List.flatten (List.map_congr_left fun p hp => ?_)
  cases hi : p.index? with
  | none => rfl
  | some i => rw [Option.bind_some, Option.bind_some, h i (List.mem_filterMap.2 ⟨p, hp, hi⟩)]

theorem replace_none (t : Text) : Marker.replace nonce (fun _ => none) t = t := by
  have hsource : ∀ p : Marker.Piece, p.replacement nonce (p.index?.bind fun _ => none) = p.source nonce := fun p => by
    cases p <;> rfl
  rw [Marker.replace]
  simp only [hsource, Marker.pieces_source]

theorem fill_of_not_isIn {t : Text} (h : Marker.isIn nonce t = false) : fill nonce values t = t := by
  have hnil : Marker.indexes nonce t = [] := by simpa [Marker.isIn] using h
  refine (replace_congr fun i hi => ?_).trans (replace_none t)
  rw [hnil] at hi
  cases hi

/-- Raw text that is not a slot holds no marker, and stays as it is. -/
theorem filledAll_of_isRawText {name : Text} {as : List (Attribute Text)} {cs : List Node}
    (h : Element.Fits name as cs) (hr : Element.isRawText name = true) (hs : isSlot nonce cs = false) :
    filledAll nonce values cs = cs := by
  rcases h.rawText hr with rfl | ⟨t, rfl⟩
  · rfl
  · rw [filledAll, filledAll, filled, fill_of_not_isIn hs]

end Template
end SafeMarkup
