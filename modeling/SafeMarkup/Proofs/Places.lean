import SafeMarkup.Proofs.DocumentOrder
/-!
# Places in a tree

A place in a tree is given by its parents, each with what it holds before the place and after it.  When a fragment is
read on behind a node that is not a text, nothing looks into that node any more: it ends up in one place whatever it
holds, and before that place stands what had been read before the node (`Fragment.exists_place`).
-/
namespace SafeMarkup

/-- A parent of a place, with what it holds before the place, the last node first, and what it holds after it. -/
structure Frame extends OpenElement where
  after : List Node

/-- The parent with a node in the place. -/
def Frame.around (n : Node) (f : Frame) : Node := .element f.name f.attributes (f.children.reverse ++ n :: f.after)

namespace Node

/-- The tree with a node in a place, of which the innermost parent comes first. -/
def plug (place : List Frame) (n : Node) : Node := place.foldl Frame.around n

theorem plug_append (place outer : List Frame) (n : Node) : plug (place ++ outer) n = plug outer (plug place n) :=
  List.foldl_append

theorem isText_plug : ∀ (place : List Frame) {n : Node}, n.isText = false → (plug place n).isText = false
  | [], _, h => h
  | f :: place, n, _ => isText_plug place (n := f.around n) rfl

theorem each_of_plug {P : Node → Prop} : ∀ (place : List Frame) {n : Node}, (plug place n).Each P → n.Each P
  | [], _, h => h
  | f :: place, n, h => by
    have haround : (f.around n).Each P := each_of_plug place h
    exact (each_element.1 haround).2 n (List.mem_append_right _ (List.mem_cons_self ..))

end Node

/-! ## Open elements level by level -/

namespace Fragment

open Node

/-- The open elements and the fragment itself, the innermost first. -/
def levels (f : Fragment) : List OpenElement := f.path ++ [⟨Element.root, [], f.children⟩]

/-- Adds a node to the innermost level. -/
def addTop (n : Node) : List OpenElement → List OpenElement
  | [] => []
  | e :: es => { e with children := addChild n e.children } :: es

/-- Closes the innermost level, unless it is the last one. -/
def closeTop : List OpenElement → List OpenElement
  | e :: e' :: es => addTop (.element e.name e.attributes e.children.reverse) (e' :: es)
  | es => es

theorem levels_add (n : Node) (f : Fragment) : (f.add n).levels = addTop n f.levels := by
  obtain ⟨path, cs⟩ := f
  cases path <;> rfl

theorem levels_closeOne (f : Fragment) : f.closeOne.levels = closeTop f.levels := by
  obtain ⟨path, cs⟩ := f
  cases path with
  | nil => rfl
  | cons e path =>
    rw [closeOne, levels_add]
    cases path <;> rfl

theorem map_name_path (f : Fragment) : f.path.map (·.name) = (f.levels.map (·.name)).dropLast := by
  rw [levels, List.map_append, List.map_singleton, List.dropLast_concat]

/-- What an end tag closes depends on the names of the levels and on nothing else. -/
theorem depth?_congr {f g : Fragment} (h : f.levels.map (·.name) = g.levels.map (·.name)) (name : Text) :
    f.depth? name = g.depth? name := by
  have hnames : ∀ f : Fragment, f.depth? name =
      ((f.path.map (·.name)).findIdx? (Text.sameFolded · name)).map (· + 1) := fun f => by
    rw [List.findIdx?_map]
    rfl
  rw [hnames, hnames, map_name_path, map_name_path, h]

/-- A node that is no text parts what is added behind it from what stands before it. -/
theorem addChild_append (n : Node) {k : Node} (hk : k.isText = false) (later before : List Node) :
    addChild n (later ++ k :: before) = addChild n later ++ k :: before := by
  cases later with
  | nil => cases n <;> cases k <;> first | rfl | cases hk
  | cons a later => cases n <;> cases a <;> rfl

end Fragment

/-! ## Reading on around a gap -/

/-- The levels of a fragment with a gap in them, where some node stands. -/
structure Gap where
  /-- What is open behind the gap, the innermost first. -/
  above : List OpenElement
  /-- The place of the gap in what is complete. -/
  place : List Frame
  /-- What stands behind the gap in its level, the last node first. -/
  later : List Node
  /-- The level of the gap, with what it holds before it. -/
  level : OpenElement
  below : List OpenElement

namespace Gap

open Node Fragment

def fill (g : Gap) (n : Node) : List OpenElement :=
  g.above ++ { g.level with children := g.later ++ plug g.place n :: g.level.children } :: g.below

/-- The parents of the gap, with what they hold before it. -/
def spine (g : Gap) : List OpenElement := g.place.map Frame.toOpenElement ++ g.level :: g.below

def add (n : Node) (g : Gap) : Gap :=
  match g.above with
  | [] => { g with later := addChild n g.later }
  | e :: es => { g with above := { e with children := addChild n e.children } :: es }

/-- Closes the innermost level.  Where this is the level of the gap, the level becomes a part of its place. -/
def closeOne (g : Gap) : Gap :=
  match g.above, g.below with
  | e :: es, _ => add (.element e.name e.attributes e.children.reverse) { g with above := es }
  | [], e :: es => ⟨[], g.place ++ [⟨g.level, g.later.reverse⟩], [], e, es⟩
  | [], [] => g

/-- The fragments are the same but for the node in the gap. -/
def Holds (g : Gap) (f : Node → Fragment) : Prop := ∀ n, n.isText = false → (f n).levels = g.fill n

theorem spine_add (n : Node) (g : Gap) : (g.add n).spine = g.spine := by
  rw [add]
  split <;> rfl

theorem fill_add (m : Node) (g : Gap) {n : Node} (hn : n.isText = false) : (g.add m).fill n = addTop m (g.fill n) := by
  rw [add]
  split
  · rename_i h
    rw [fill, fill, h, List.nil_append, List.nil_append, addTop, addChild_append m (isText_plug g.place hn)]
  · rename_i h
    rw [fill, fill, h]
    rfl

theorem spine_closeOne (g : Gap) : g.closeOne.spine = g.spine := by
  rw [closeOne]
  split
  · exact spine_add ..
  · rename_i h
    rw [spine, spine, h, List.map_append, List.append_assoc]
    rfl
  · rfl

theorem around_plug (g : Gap) (n : Node) :
    plug (g.place ++ [⟨g.level, g.later.reverse⟩]) n =
      .element g.level.name g.level.attributes (g.later ++ plug g.place n :: g.level.children).reverse := by
  rw [plug_append, List.reverse_append, List.reverse_cons, List.append_assoc]
  rfl

theorem fill_closeOne (g : Gap) {n : Node} (hn : n.isText = false) : g.closeOne.fill n = closeTop (g.fill n) := by
  rw [closeOne]
  split
  · rename_i e es h
    rw [fill_add _ _ hn, fill, fill, h]
    cases es <;> rfl
  · rename_i e es habove hbelow
    rw [fill, fill, habove, hbelow, around_plug]
    rfl
  · rename_i habove hbelow
    rw [fill, habove, hbelow]
    rfl

theorem spine_repeat_closeOne (g : Gap) : ∀ k, (Nat.repeat closeOne k g).spine = g.spine
  | 0 => rfl
  | k + 1 => (spine_closeOne _).trans (spine_repeat_closeOne g k)

section

variable {g : Gap} {f : Node → Fragment}

theorem Holds.add (h : g.Holds f) (m : Node) : (g.add m).Holds fun n => (f n).add m := fun n hn => by
  rw [levels_add, h n hn, fill_add m g hn]

theorem Holds.repeat_closeOne (h : g.Holds f) :
    ∀ k, (Nat.repeat Gap.closeOne k g).Holds fun n => Nat.repeat Fragment.closeOne k (f n)
  | 0 => h
  | k + 1 => fun n hn => by
    refine (levels_closeOne _).trans ?_
    rw [h.repeat_closeOne k n hn]
    exact (fill_closeOne _ hn).symm

theorem map_name_fill (g : Gap) (n : Node) :
    (g.fill n).map (·.name) = g.above.map (·.name) ++ g.level.name :: g.below.map (·.name) := by
  rw [fill, List.map_append, List.map_cons]

/-- **One token makes of the fragments what it makes of the gap.** -/
theorem Holds.step (h : g.Holds f) (t : Token Text) :
    ∃ g' : Gap, g'.spine = g.spine ∧ g'.Holds fun n => (f n).step t := by
  cases t with
  | doctype s => exact ⟨g, rfl, h⟩
  | comment s => exact ⟨_, spine_add _ g, h.add (.comment s)⟩
  | text s =>
    by_cases hs : s.isEmpty = true
    · simp only [Fragment.step, if_pos hs]
      exact ⟨g, rfl, h⟩
    · simp only [Fragment.step, if_neg hs]
      exact ⟨_, spine_add _ g, h.add (.text s)⟩
  | startTag name as selfClosing =>
    cases selfClosing with
    | true => exact ⟨_, spine_add _ g, h.add (.element name as [])⟩
    | false =>
      refine ⟨{ g with above := ⟨name, as, []⟩ :: g.above }, rfl, fun n hn => ?_⟩
      exact congrArg (⟨name, as, []⟩ :: ·) (h n hn)
  | endTag name =>
    -- how much is closed does not depend on the node in the gap
    have hdepth : ∀ n, n.isText = false → (f n).depth? name = (f (.comment [])).depth? name := fun n hn => by
      refine depth?_congr ?_ name
      rw [h n hn, h (.comment []) rfl, map_name_fill, map_name_fill]
    refine ⟨_, spine_repeat_closeOne g (((f (.comment [])).depth? name).getD 0), fun n hn => ?_⟩
    change (Nat.repeat Fragment.closeOne (((f n).depth? name).getD 0) (f n)).levels = _
    rw [hdepth n hn]
    exact h.repeat_closeOne _ n hn

theorem Holds.foldl_step : ∀ (ts : List (Token Text)) {g : Gap} {f : Node → Fragment}, g.Holds f →
    ∃ g' : Gap, g'.spine = g.spine ∧ g'.Holds fun n => ts.foldl Fragment.step (f n)
  | [], g, _, h => ⟨g, rfl, h⟩
  | t :: ts, g, f, h => by
    obtain ⟨g₁, hspine₁, h₁⟩ := h.step t
    obtain ⟨g₂, hspine₂, h₂⟩ := Holds.foldl_step ts h₁
    exact ⟨g₂, hspine₂.trans hspine₁, h₂⟩

/-- **Closed to the end, the fragments are trees that are the same but for the node in the gap.** -/
theorem Holds.toNode (h : g.Holds f) : ∃ place : List Frame, place.map Frame.toOpenElement = g.spine ∧
    ∀ n, n.isText = false → (f n).toNode = plug place n := by
  have hlength : ∀ n, n.isText = false → (f n).path.length = g.above.length + g.below.length := fun n hn => by
    have := congrArg List.length (h n hn)
    rw [levels, fill, List.length_append, List.length_append, List.length_singleton, List.length_cons] at this
    omega
  obtain ⟨g', hspine, h'⟩ : ∃ g' : Gap, g'.spine = g.spine ∧
      g'.Holds fun n => Nat.repeat Fragment.closeOne (g.above.length + g.below.length) (f n) :=
    ⟨_, spine_repeat_closeOne g _, h.repeat_closeOne _⟩
  have hone : ∀ n, n.isText = false → g'.fill n =
      [⟨Element.root, [], (Nat.repeat Fragment.closeOne (f n).path.length (f n)).children⟩] := fun n hn => by
    rw [← h' n hn, ← hlength n hn, levels, path_repeat_closeOne_length, List.nil_append]
  obtain ⟨habove, hbelow⟩ : g'.above = [] ∧ g'.below = [] := by
    have := congrArg List.length (hone (.comment []) rfl)
    rw [fill, List.length_append, List.length_cons, List.length_singleton] at this
    exact ⟨List.length_eq_zero_iff.1 (by omega), List.length_eq_zero_iff.1 (by omega)⟩
  refine ⟨g'.place ++ [⟨g'.level, g'.later.reverse⟩], ?_, fun n hn => ?_⟩
  · rw [← hspine, spine, hbelow, List.map_append]
    rfl
  · have hlevel := hone n hn
    rw [fill, habove, hbelow, List.nil_append] at hlevel
    obtain ⟨hname, hattributes, hchildren⟩ := OpenElement.mk.inj (List.singleton_inj.1 hlevel)
    rw [around_plug, hname, hattributes, hchildren]
    rfl

end

end Gap

/-- **A node that is no text is not looked into.**  Whatever it holds, it ends up in one place when the fragment is read
on, behind what had been read before. -/
theorem Fragment.exists_place (f : Fragment) (t : Text) : ∃ place : List Frame,
    place.map Frame.toOpenElement = f.levels ∧
    ∀ n, n.isText = false → ((f.add n).read t).toNode = Node.plug place n := by
  obtain ⟨e, es, he⟩ : ∃ e es, f.levels = e :: es := List.exists_cons_of_ne_nil (by simp [levels])
  have hgap : (⟨[], [], [], e, es⟩ : Gap).Holds fun n => f.add n := fun n hn => by
    rw [levels_add, he]
    cases n with
    | text s => cases hn
    | element name as cs => rfl
    | comment s => rfl
  obtain ⟨g, hspine, hg⟩ := hgap.foldl_step (tokens t)
  obtain ⟨place, hplace, htree⟩ := hg.toNode
  exact ⟨place, hplace.trans (hspine.trans he.symm), htree⟩

/-! ## Trees written and read around a place -/

/-- A parent of a place as it is read up to the place. -/
def Frame.shown (f : Frame) : OpenElement :=
  ⟨f.name, f.attributes.map Attribute.valued, (Node.asReadAll f.children.reverse).reverse⟩

/-- What the frames hold before a place is written so that it ends where it ends. -/
def ClosedBefore (place : List Frame) : Prop := ∀ f ∈ place, ∀ n ∈ f.children, n.Each Node.RawClosed

namespace Node

/-- A parent of an element is neither void nor raw text. -/
theorem plain_of_fits {f : Frame} {n : Node} (hn : n.isText = false)
    (h : Element.Fits f.name f.attributes (f.children.reverse ++ n :: f.after)) :
    Element.isVoid f.name = false ∧ Element.isRawText f.name = false := by
  have hmem : n ∈ f.children.reverse ++ n :: f.after := List.mem_append_right _ (List.mem_cons_self ..)
  constructor
  · refine Bool.eq_false_iff.2 fun hv => ?_
    rw [h.void hv] at hmem
    cases hmem
  · refine Bool.eq_false_iff.2 fun hr => ?_
    rcases h.rawText hr with hnil | ⟨t, htext⟩
    · rw [hnil] at hmem
      cases hmem
    · rw [htext] at hmem
      obtain rfl := List.mem_singleton.1 hmem
      cases hn

/-- What a parent holds before a place is read as it is shown. -/
theorem closed_before {f : Frame} {n : Node} (hs : (f.around n).Each Sound) (hc : ∀ m ∈ f.children, m.Each RawClosed) :
    Text.Closed (writeAll false f.children.reverse) (f.children.reverse.map asRead) ∧
      (f.children.reverse.map asRead).foldl Fragment.pile [] = f.shown.children := by
  obtain ⟨hfit, hscs⟩ := each_element.1 hs
  have hbefore : ∀ m ∈ f.children.reverse, m.Each Sound := fun m hm => hscs m (List.mem_append_left _ hm)
  refine ⟨Text.closed_writeAll fun m hm => closed_write m (hbefore m hm) (hc m (List.mem_reverse.1 hm)), ?_⟩
  have hjoined := joined_map_asRead hfit.apart.left_of_append
  rw [Frame.shown, ← hjoined, joined, List.reverse_reverse]

theorem write_around {f : Frame} {n : Node} (hn : n.isText = false)
    (h : Element.Fits f.name f.attributes (f.children.reverse ++ n :: f.after)) (k : Node) :
    (f.around k).write false = writeStart f.name f.attributes ++ (writeAll false f.children.reverse ++
      (k.write false ++ (writeAll false f.after ++ writeEnd f.name))) := by
  obtain ⟨hv, hr⟩ := plain_of_fits hn h
  rw [Frame.around, write, if_neg (by simp [hv]), hr, writeAll_append, writeAll]
  simp only [List.append_assoc]

/-- A parent is read up to the place as it is shown. -/
theorem read_around {f : Frame} {n : Node} (hn : n.isText = false) (hs : (f.around n).Each Sound)
    (hc : ∀ m ∈ f.children, m.Each RawClosed) (outer : Fragment) (t : Text) :
    outer.read (writeStart f.name f.attributes ++ (writeAll false f.children.reverse ++ t)) =
      Fragment.read ⟨f.shown :: outer.path, outer.children⟩ t := by
  have hfit := (each_element.1 hs).1
  obtain ⟨hv, hr⟩ := plain_of_fits hn hfit
  obtain ⟨hclosed, hshown⟩ := closed_before hs hc
  rw [Fragment.read_writeStart outer hfit hv hr, hclosed, Fragment.extend_open, hshown]
  rfl

/-- The text that a tree is written as, cut at a place: it is read up to the place as what stands before it there. -/
theorem exists_inner_plug : ∀ {place : List Frame} {n : Node} {cs : List Node}, place ≠ [] → n.isText = false →
    plug place n = .element Element.root [] cs → (plug place n).Each Sound → ClosedBefore place →
      ∃ before after f, (∀ k, (plug place k).inner = before ++ (k.write false ++ after)) ∧
        (∀ t, Fragment.empty.read (before ++ t) = Fragment.read f t) ∧ f.levels = place.map Frame.shown
  | [], _, _, hne, _, _, _, _ => absurd rfl hne
  | [r], n, cs, _, hn, h, hs, hc => by
    obtain ⟨hname, hattributes, -⟩ := Node.element.inj h
    obtain ⟨hclosed, hshown⟩ := closed_before hs (hc r (List.mem_singleton_self _))
    have hroot : Element.isRawText r.name = false := by
      rw [hname]
      decide
    refine ⟨writeAll false r.children.reverse, writeAll false r.after, ⟨[], r.shown.children⟩, fun k => ?_, fun t => ?_,
      ?_⟩
    · change writeAll (Element.isRawText r.name) (r.children.reverse ++ k :: r.after) = _
      rw [hroot, writeAll_append, writeAll]
    · rw [hclosed, Fragment.empty, Fragment.extend_root, hshown]
    · rw [Fragment.levels, List.map_singleton, Frame.shown, hname, hattributes]
      rfl
  | f :: g :: place, n, cs, _, hn, h, hs, hc => by
    have haround : (f.around n).Each Sound := each_of_plug (g :: place) hs
    obtain ⟨before, after, outer, hinner, hread, hlevels⟩ := exists_inner_plug (n := f.around n)
      (List.cons_ne_nil g place) rfl h hs fun e he => hc e (List.mem_cons_of_mem _ he)
    refine ⟨before ++ (writeStart f.name f.attributes ++ writeAll false f.children.reverse),
      writeAll false f.after ++ (writeEnd f.name ++ after), ⟨f.shown :: outer.path, outer.children⟩, fun k => ?_,
      fun t => ?_, ?_⟩
    · change (plug (g :: place) (f.around k)).inner = _
      rw [hinner, write_around hn (each_element.1 haround).1]
      simp only [List.append_assoc]
    · rw [List.append_assoc, List.append_assoc, hread, read_around hn haround (hc f (List.mem_cons_self ..))]
    · rw [List.map_cons, ← hlevels]
      rfl

/-- **A node is read in its place, and the rest of the tree does not depend on it**, if it is sound and closed and all
raw text before its place is closed. -/
theorem exists_parse_plug {place : List Frame} {n : Node} {cs : List Node} (hplace : place ≠ []) (hn : n.isText = false)
    (h : plug place n = .element Element.root [] cs) (hs : (plug place n).Each Sound) (hc : ClosedBefore place) :
    ∃ d : List Frame, d.map Frame.toOpenElement = place.map Frame.shown ∧
      ∀ k : Node, k.isText = false → k.Each Sound → k.Each RawClosed →
        parse (plug place k).inner = plug d k.asRead := by
  obtain ⟨before, after, f, hinner, hread, hlevels⟩ := exists_inner_plug hplace hn h hs hc
  obtain ⟨d, hd, htree⟩ := f.exists_place after
  refine ⟨d, hd.trans hlevels, fun k hk hks hkc => ?_⟩
  have hread : Fragment.empty.read (plug place k).inner = (f.add k.asRead).read after := by
    rw [hinner, hread, closed_write k hks hkc]
    cases k with
    | text t => cases hk
    | element name as cs => rfl
    | comment t => rfl
  have hparse : parse (plug place k).inner = (Fragment.empty.read (plug place k).inner).toNode := rfl
  rw [hparse, hread, htree k.asRead ((isText_asRead k).trans hk)]

end Node
end SafeMarkup
