import SafeMarkup.Proofs.Resolution
import SafeMarkup.Template.Format
/-!
# Format strings are taken apart as they are put together

A format string is a row of items: lone characters, doubled braces and slots.  It is read from the left, a pair of
braces wherever one stands, which settles the items (`Template.Scan.eq_items`); splitting cuts them at the slots and
keeps one character of every other item.  A segment with its braces doubled is read as its own characters whatever
follows, for its last brace is always taken by the one before it (`Template.split_double_append`).
-/
namespace SafeMarkup

namespace Template

/-! ## Items of a format string -/

/-- A part of a format string: a lone character, `{{`, `}}`, or `{}`. -/
inductive Item where
  | char (c : Char)
  | left
  | right
  | slot
  deriving DecidableEq

/-- An item as it is written. -/
def Item.source : Item → Text
  | .char c => [c]
  | .left => ['{', '{']
  | .right => ['}', '}']
  | .slot => ['{', '}']

/-- The character that is kept of an item. -/
def Item.kept? : Item → Option Char
  | .char c => some c
  | .left => some '{'
  | .right => some '}'
  | .slot => none

/-- Whether an item of two braces stands at the start of a text. -/
def BeginsPair (t : Text) : Prop := Item.left.source <+: t ∨ Item.right.source <+: t ∨ Item.slot.source <+: t

/-- Some items are what a text is read as from the left: no lone character begins a pair with what stands behind it. -/
structure Scan (t : Text) (items : List Item) : Prop where
  source : items.flatMap Item.source = t
  lone : ∀ before c after, items = before ++ .char c :: after → ¬BeginsPair (c :: after.flatMap Item.source)

/-- The items of a text. -/
def items : Text → List Item
  | '{' :: '{' :: t => .left :: items t
  | '}' :: '}' :: t => .right :: items t
  | '{' :: '}' :: t => .slot :: items t
  | c :: t => .char c :: items t
  | [] => []

theorem scan_nil : Scan [] [] := ⟨rfl, fun before c after h => by cases before <;> cases h⟩

theorem scan_cons_iff {t : Text} {p : Item} {ps : List Item} : Scan t (p :: ps) ↔
    ∃ r, t = p.source ++ r ∧ Scan r ps ∧ ∀ c, p = .char c → ¬BeginsPair (c :: r) := by
  constructor
  · rintro ⟨hsource, hlone⟩
    refine ⟨ps.flatMap Item.source, hsource.symm, ⟨rfl, fun before c after hs => ?_⟩, fun c hc => ?_⟩
    · exact hlone (p :: before) c after (congrArg (p :: ·) hs)
    · exact hlone [] c ps (congrArg (· :: ps) hc)
  · rintro ⟨r, rfl, ⟨rfl, hlone⟩, hp⟩
    refine ⟨rfl, fun before c after hs => ?_⟩
    cases before with
    | nil =>
      obtain ⟨rfl, rfl⟩ := List.cons.inj hs
      exact hp c rfl
    | cons q before => exact hlone before c after (List.cons.inj hs).2

theorem beginsPair_cons {c : Char} {t : Text} : BeginsPair (c :: t) ↔
    ∃ r, c = '{' ∧ t = '{' :: r ∨ c = '}' ∧ t = '}' :: r ∨ c = '{' ∧ t = '}' :: r := by
  have hpair : ∀ a b, [a, b] <+: c :: t ↔ ∃ r, c = a ∧ t = b :: r := fun a b => by
    cases t <;> simp [List.cons_prefix_cons, eq_comm]
  simp only [BeginsPair, Item.source, hpair, exists_or]

theorem items_of_not_beginsPair {c : Char} {t : Text} (h : ¬BeginsPair (c :: t)) :
    items (c :: t) = .char c :: items t := by
  rw [beginsPair_cons] at h
  rw [items]
  · rintro r rfl rfl
    exact h ⟨r, .inl ⟨rfl, rfl⟩⟩
  · rintro r rfl rfl
    exact h ⟨r, .inr (.inl ⟨rfl, rfl⟩)⟩
  · rintro r rfl rfl
    exact h ⟨r, .inr (.inr ⟨rfl, rfl⟩)⟩

theorem scan_items (t : Text) : Scan t (items t) := by
  fun_induction items t with
  | case1 t ih => exact scan_cons_iff.2 ⟨t, rfl, ih, nofun⟩
  | case2 t ih => exact scan_cons_iff.2 ⟨t, rfl, ih, nofun⟩
  | case3 t ih => exact scan_cons_iff.2 ⟨t, rfl, ih, nofun⟩
  | case4 c t hleft hright hslot ih =>
    refine scan_cons_iff.2 ⟨t, rfl, ih, fun d hd => ?_⟩
    obtain rfl := Item.char.inj hd
    rw [beginsPair_cons]
    rintro ⟨r, ⟨hc, ht⟩ | ⟨hc, ht⟩ | ⟨hc, ht⟩⟩
    · exact hleft r hc ht
    · exact hright r hc ht
    · exact hslot r hc ht
  | case5 => exact scan_nil

/-- **A text is read in one way.** -/
theorem Scan.eq_items : ∀ {ps : List Item} {t : Text}, Scan t ps → ps = items t
  | [], t, h => by
    obtain rfl := h.source
    rfl
  | p :: ps, t, h => by
    obtain ⟨r, rfl, hr, hp⟩ := scan_cons_iff.1 h
    obtain rfl := hr.eq_items
    cases p with
    | char c => exact (items_of_not_beginsPair (hp c rfl)).symm
    | left => rfl
    | right => rfl
    | slot => rfl

/-! ## Splitting -/

/-- The texts between the slots of some items. -/
def betweenSlots (ps : List Item) : List Text := (ps.splitOn .slot).map (·.filterMap Item.kept?)

theorem betweenSlots_ne_nil (ps : List Item) : betweenSlots ps ≠ [] := by
  rw [betweenSlots, ne_eq, List.map_eq_nil_iff]
  exact List.splitOnP_ne_nil _ _

theorem betweenSlots_cons_slot (ps : List Item) : betweenSlots (.slot :: ps) = [] :: betweenSlots ps := by
  rw [betweenSlots, List.splitOn, List.splitOnP_cons_eq_if_modifyHead, if_pos (beq_self_eq_true _)]
  rfl

theorem betweenSlots_cons_kept {p : Item} {c : Char} (hp : p.kept? = some c) (ps : List Item) :
    betweenSlots (p :: ps) = (betweenSlots ps).modifyHead (c :: ·) := by
  have hne : (p == Item.slot) = false := by
    cases p with
    | slot => cases hp
    | char | left | right => rfl
  rw [betweenSlots, betweenSlots, List.splitOn, List.splitOn, List.splitOnP_cons_eq_if_modifyHead, hne]
  cases List.splitOnP (· == Item.slot) ps with
  | nil => rfl
  | cons q qs => exact congrArg (· :: qs.map _) (List.filterMap_cons_some hp)

/-- **Splitting cuts the items at the slots.** -/
theorem split_eq (t : Text) : split t = betweenSlots (items t) := by
  fun_induction items t with
  | case1 t ih => rw [split, ih, betweenSlots_cons_kept rfl]
  | case2 t ih => rw [split, ih, betweenSlots_cons_kept rfl]
  | case3 t ih => rw [split, ih, betweenSlots_cons_slot]
  | case4 c t hleft hright hslot ih => rw [split, ih, betweenSlots_cons_kept rfl] <;> assumption
  | case5 => rfl

theorem flatten_modifyHead (s : Text) {ss : List Text} (h : ss ≠ []) :
    (ss.modifyHead (s ++ ·)).flatten = s ++ ss.flatten := by
  obtain ⟨u, ss, rfl⟩ := List.exists_cons_of_ne_nil h
  exact List.append_assoc ..

/-- Nothing is lost but slots and the second of two braces. -/
theorem flatten_betweenSlots (ps : List Item) : (betweenSlots ps).flatten = ps.filterMap Item.kept? := by
  induction ps with
  | nil => rfl
  | cons p ps ih =>
    cases hp : p.kept? with
    | some c =>
      rw [betweenSlots_cons_kept hp, List.filterMap_cons_some hp, ← ih]
      exact flatten_modifyHead [c] (betweenSlots_ne_nil ps)
    | none =>
      obtain rfl : p = .slot := by
        cases p with
        | slot => rfl
        | char | left | right => cases hp
      rw [betweenSlots_cons_slot, List.filterMap_cons_none hp, ← ih]
      rfl

/-! ## Putting together -/

/-- **A segment with its braces doubled is read as the segment**, whatever follows it. -/
theorem split_double_append (s t : Text) : split (double s ++ t) = (split t).modifyHead (s ++ ·) := by
  induction s with
  | nil => exact (congrFun List.modifyHead_id (split t)).symm
  | cons c s ih =>
    have hone : split (double (c :: s) ++ t) = (split (double s ++ t)).modifyHead (c :: ·) := by
      rw [double, List.flatMap_cons]
      by_cases hl : c = '{'
      · subst hl
        rfl
      · by_cases hr : c = '}'
        · subst hr
          rfl
        · have hlone : (if c == '{' || c == '}' then [c, c] else [c]) = [c] := by simp [hl, hr]
          rw [hlone, List.append_assoc, List.singleton_append, split]
          · rfl
          · exact fun _ h => absurd h hl
          · exact fun _ h => absurd h hr
          · exact fun _ h => absurd h hl
    rw [hone, ih, List.modifyHead_modifyHead]
    rfl

theorem split_slot (t : Text) : split ('{' :: '}' :: t) = [] :: split t := rfl

/-- **The segments come back.** -/
theorem split_ofSegments : ∀ (s : Text) (segments : List Text), split (ofSegments (s :: segments)) = s :: segments
  | s, [] => by
    have h := split_double_append s []
    have hs : ofSegments [s] = double s := by simp [ofSegments]
    rw [List.append_nil] at h
    rw [hs, h]
    exact congrArg (· :: []) (List.append_nil s)
  | s, t :: segments => by
    have h : ofSegments (s :: t :: segments) = double s ++ '{' :: '}' :: ofSegments (t :: segments) := by
      simp [ofSegments, List.intercalate_cons_cons]
    rw [h, split_double_append, split_slot, split_ofSegments t segments]
    exact congrArg (· :: t :: segments) (List.append_nil s)

example : split ['{', '{', '{', '}', '}', '}'] = [['{'], ['}']] := rfl

theorem render_eq_templateShape_iff {nonce : Text} {values : List Interpolation} {segments : List Text} {a b : Nat} :
    render nonce values segments = .error (.templateShape a b) ↔
      segments.length ≠ values.length + 1 ∧ segments.length = a ∧ values.length = b := by
  by_cases hl : segments.length = values.length + 1
  · by_cases hv : values = []
    · simp [render, hl, hv]
    · rw [render_eq hv hl, refusing_eq_error]
      simp [hl]
  · simp [render, hl]

/-- **Splitting undoes the doubling of braces.**  A format string made from segments is split into them, and so renders
as they do, with the same refusal where their number is wrong; and of every format string, which is read in one way,
all is kept but the slots and the second of two braces. -/
theorem split_exact :
    (∀ s segments, split (ofSegments (s :: segments)) = s :: segments ∧ ∀ nonce values,
      render nonce values (split (ofSegments (s :: segments))) = render nonce values (s :: segments) ∧
      ∀ a b, render nonce values (split (ofSegments (s :: segments))) = .error (.templateShape a b) ↔
        (s :: segments).length ≠ values.length + 1 ∧ (s :: segments).length = a ∧ values.length = b) ∧
    ∀ t, ∃ ps, Scan t ps ∧ (∀ qs, Scan t qs → qs = ps) ∧ split t = betweenSlots ps ∧
      (split t).flatten = ps.filterMap Item.kept? := by
  constructor
  · intro s segments
    rw [split_ofSegments]
    exact ⟨rfl, fun nonce values => ⟨rfl, fun a b => render_eq_templateShape_iff⟩⟩
  · intro t
    refine ⟨items t, scan_items t, fun qs h => h.eq_items, split_eq t, ?_⟩
    rw [split_eq, flatten_betweenSlots]

end Template
end SafeMarkup
