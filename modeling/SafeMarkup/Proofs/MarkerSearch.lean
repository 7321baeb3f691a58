import SafeMarkup.Marker.Search
import SafeMarkup.Proofs.EscapedMarkers
/-!
# What a search finds

The search by bytes finds the markers among the pieces of a text, and none of its cuts misses a place (`find?_eq`,
`contains?_eq`).  Where the lead stands without a marker the search goes on one byte later, which is one character
later, for a lead begins with `$`; so it looks wherever a piece may begin (`next?_cons`).

What it finds is described by the text alone (`Reported`): of the markers that stand in the text, wherever they begin,
those that begin inside no marker reported before them.
-/
namespace SafeMarkup

namespace Text

theorem byteLength_of_isDigit {t : Text} (h : ∀ c ∈ t, c.isDigit = true) : byteLength t = t.length := by
  refine byteLength_of_lt fun c hc => ?_
  have hdigit := h c hc
  simp only [Char.isDigit, Bool.and_eq_true, decide_eq_true_eq] at hdigit
  exact Nat.lt_of_le_of_lt (UInt32.le_iff_toNat_le.1 hdigit.2) (by decide)

theorem findByte?_of_isPrefixOf? {p t r : Text} (h : p.isPrefixOf? t = some r) : findByte? p t = some 0 := by
  have hp : p.isPrefixOf t = true := by rw [← List.isSome_isPrefixOf?_eq_isPrefixOf, h, Option.isSome_some]
  cases t with
  | nil =>
    rw [findByte?, if_pos]
    cases p with
    | nil => rfl
    | cons => cases hp
  | cons c t => rw [findByte?, if_pos hp]

theorem findByte?_cons {p t : Text} {c : Char} (h : p.isPrefixOf? (c :: t) = none) :
    findByte? p (c :: t) = (findByte? p t).map (c.utf8Size + ·) := by
  rw [findByte?, if_neg]
  rw [← List.isSome_isPrefixOf?_eq_isPrefixOf, h]
  exact Bool.false_ne_true

end Text

namespace Marker

open Text

variable {nonce : Text}

/-- The marker with some digits at byte `start`. -/
def occurrence (nonce : Text) (start : Nat) (digits : Text) : Occurrence :=
  ⟨start, start + byteLength ((Piece.marker digits).source nonce), digitsValue 10 digits⟩

theorem stop_occurrence (start : Nat) (digits : Text) : (occurrence nonce start digits).stop =
    start + byteLength ((Piece.marker digits).source nonce) := rfl

/-! ## The loop finds the markers among the pieces -/

theorem number?_eq_some_iff {digits : Text} {i : Nat} :
    number? digits = some i ↔ digits ≠ [] ∧ digitsValue 10 digits < indexLimit ∧ digitsValue 10 digits = i := by
  simp only [number?, Option.ite_none_left_eq_some, Bool.or_eq_true, List.isEmpty_iff, decide_eq_true_eq, not_or,
    Nat.not_le, Option.some.injEq, and_assoc, ne_eq]

theorem byteLength_source (digits : Text) : byteLength ((Piece.marker digits).source nonce) =
    byteLength (lead nonce) + byteLength digits + byteLength fence := by
  rw [Piece.source, byteLength_append, byteLength_append]

theorem read?_of_lead {u s : Text} (h : (lead nonce).isPrefixOf? u = some s) :
    read? nonce u = (number? (s.takeWhile Char.isDigit)).bind fun _ =>
      (fence.isPrefixOf? (s.dropWhile Char.isDigit)).map (s.takeWhile Char.isDigit, ·) := by
  rw [read?, h]
  simp only [number?]
  split <;> rfl

theorem at?_append (before : Text) {u s : Text} (h : (lead nonce).isPrefixOf? u = some s) :
    at? nonce (before ++ u) (byteLength before) =
      some ((read? nonce u).map fun r => occurrence nonce (byteLength before) r.1) := by
  have hdigits : ∀ c ∈ s.takeWhile Char.isDigit, c.isDigit = true := fun c hc => List.mem_takeWhile_imp hc
  rw [read?_of_lead h, ← List.append_eq_of_isPrefixOf?_eq_some h]
  generalize hd : s.takeWhile Char.isDigit = d at hdigits ⊢
  generalize hz : s.dropWhile Char.isDigit = z
  have hs : s = d ++ z := by rw [← hd, ← hz, List.takeWhile_append_dropWhile]
  have hlength : (s.takeWhile Char.isDigit).length = byteLength d := by rw [hd, byteLength_of_isDigit hdigits]
  have hbehindLead :
      fromByte? (byteLength before + byteLength (lead nonce)) (before ++ (lead nonce ++ s)) = some s := by
    rw [← List.append_assoc, ← byteLength_append]
    exact fromByte?_append _ s
  have hslice : slice? (byteLength before + byteLength (lead nonce))
      (byteLength before + byteLength (lead nonce) + byteLength d) (before ++ (lead nonce ++ s)) = some d := by
    rw [← List.append_assoc, ← byteLength_append, hs]
    exact slice?_append _ d z
  have hbehindDigits : fromByte? (byteLength before + byteLength (lead nonce) + byteLength d)
      (before ++ (lead nonce ++ s)) = some z := by
    rw [hs, ← List.append_assoc, ← List.append_assoc, ← byteLength_append, ← byteLength_append]
    exact fromByte?_append _ z
  simp only [at?, hbehindLead, Option.bind_eq_bind, Option.bind_some, hlength, hslice]
  cases hi : number? d with
  | none => rfl
  | some i =>
    obtain ⟨-, -, rfl⟩ := number?_eq_some_iff.1 hi
    simp only [hbehindDigits, Option.bind_some, ← List.isSome_isPrefixOf?_eq_isPrefixOf]
    cases fence.isPrefixOf? z with
    | none => rfl
    | some r =>
      have hstop : byteLength before + byteLength (lead nonce) + byteLength d + byteLength fence =
          byteLength before + byteLength ((Piece.marker d).source nonce) := by
        rw [byteLength_source]
        omega
      rw [Option.isSome_some, if_pos rfl, hstop]
      rfl

theorem next?_of_ne_nil (before : Text) {t : Text} (h : t ≠ []) :
    next? nonce (before ++ t) (byteLength before) =
      match findByte? (lead nonce) t with
      | none => some none
      | some k => (at? nonce (before ++ t) (byteLength before + k)).bind fun
        | some o => some (some o)
        | none => next? nonce (before ++ t) (byteLength before + k + 1) := by
  have hpos : byteLength before < byteLength (before ++ t) := by
    rw [byteLength_append]
    exact Nat.lt_add_of_pos_right (byteLength_pos h)
  rw [next?, dif_pos hpos, fromByte?_append]
  rfl

/-- Where no marker begins the search goes on behind the next character. -/
theorem next?_cons (before : Text) {c : Char} {t : Text} (h : read? nonce (c :: t) = none) :
    next? nonce (before ++ c :: t) (byteLength before) =
      next? nonce (before ++ [c] ++ t) (byteLength (before ++ [c])) := by
  have hsplit := List.append_cons before c t
  have hbyte : byteLength (before ++ [c]) = byteLength before + c.utf8Size := byteLength_append before [c]
  rw [next?_of_ne_nil before (List.cons_ne_nil c t)]
  cases hp : (lead nonce).isPrefixOf? (c :: t) with
  | some s =>
    -- the lead stands here without a marker: the search goes on behind its first byte
    have hat : at? nonce (before ++ c :: t) (byteLength before) = some none := by
      rw [at?_append before hp, h]
      rfl
    have hc : c = '$' := (List.cons.inj (List.append_eq_of_isPrefixOf?_eq_some hp)).1.symm
    subst hc
    rw [findByte?_of_isPrefixOf? hp]
    simp only [Nat.add_zero, hat, Option.bind_some]
    rw [hsplit, hbyte]
    rfl
  | none =>
    rw [findByte?_cons hp]
    cases t with
    | nil =>
      have hend : next? nonce (before ++ [c] ++ []) (byteLength (before ++ [c])) = some none := by
        rw [next?, dif_neg (by rw [List.append_nil]; exact Nat.lt_irrefl _)]
        rfl
      rw [hend]
      rfl
    | cons d t =>
      rw [next?_of_ne_nil (before ++ [c]) (List.cons_ne_nil d t), hsplit, hbyte]
      cases findByte? (lead nonce) (d :: t) with
      | none => rfl
      | some k => simp only [Option.map_some, Nat.add_assoc]

/-- **The next marker is the first one among the pieces.** -/
theorem next?_append (before t : Text) : next? nonce (before ++ t) (byteLength before) =
    some (locate nonce (byteLength before) (pieces nonce t)).head? := by
  fun_induction pieces nonce t generalizing before with
  | case1 =>
    rw [next?, dif_neg (by rw [List.append_nil]; exact Nat.lt_irrefl _)]
    rfl
  | case2 c t digits rest h ih =>
    obtain ⟨s, hp, -⟩ := exists_of_read? h
    rw [next?_of_ne_nil before (List.cons_ne_nil c t), findByte?_of_isPrefixOf? hp]
    simp only [Nat.add_zero, at?_append before hp, h, Option.map_some, Option.bind_some]
    rfl
  | case3 c t h ih =>
    rw [next?_cons before h, ih (before ++ [c]), byteLength_append]
    rfl

theorem findFrom?_of_next?_none {t : Text} {pos : Nat} (h : next? nonce t pos = some none) :
    findFrom? nonce t pos = some [] := by
  rw [findFrom?]
  split <;> simp_all

theorem findFrom?_of_next? {t : Text} {pos : Nat} {o : Occurrence} (h : next? nonce t pos = some (some o)) :
    findFrom? nonce t pos = (findFrom? nonce t o.stop).map (o :: ·) := by
  rw [findFrom?]
  split <;> simp_all

/-- What is found depends on the next marker only. -/
theorem findFrom?_congr {t : Text} {p q : Nat} {o? : Option Occurrence} (hp : next? nonce t p = some o?)
    (hq : next? nonce t q = some o?) : findFrom? nonce t p = findFrom? nonce t q := by
  cases o? with
  | none => rw [findFrom?_of_next?_none hp, findFrom?_of_next?_none hq]
  | some o => rw [findFrom?_of_next? hp, findFrom?_of_next? hq]

/-- **The search finds the markers among the pieces**, and no cut misses a place. -/
theorem findFrom?_append (before t : Text) : findFrom? nonce (before ++ t) (byteLength before) =
    some (locate nonce (byteLength before) (pieces nonce t)) := by
  fun_induction pieces nonce t generalizing before with
  | case1 =>
    have hnext := @next?_append nonce before []
    rw [pieces_nil] at hnext
    exact findFrom?_of_next?_none hnext
  | case2 c t digits rest h ih =>
    have hnext := @next?_append nonce before (c :: t)
    rw [pieces_of_read? h] at hnext
    have hsplit : before ++ c :: t = before ++ (Piece.marker digits).source nonce ++ rest := by
      rw [read?_source h, List.append_assoc]
    have hbehind := ih (before ++ (Piece.marker digits).source nonce)
    rw [← hsplit, byteLength_append] at hbehind
    refine (findFrom?_of_next? hnext).trans ?_
    exact congrArg (Option.map _) hbehind
  | case3 c t h ih =>
    have hsplit := List.append_cons before c t
    have hnext := @next?_append nonce (before ++ [c]) t
    have hskip := (next?_cons before h).trans hnext
    rw [hsplit] at hskip ⊢
    rw [findFrom?_congr hskip hnext, ih (before ++ [c]), byteLength_append]
    rfl

theorem find?_eq (nonce t : Text) : find? nonce t = some (occurrences nonce t) := findFrom?_append [] t

theorem map_index_locate (start : Nat) (ps : List Piece) :
    (locate nonce start ps).map (·.index) = ps.filterMap Piece.index? := by
  induction ps generalizing start with
  | nil => rfl
  | cons p ps ih =>
    cases p with
    | char c => exact ih _
    | marker digits => exact congrArg (List.cons _) (ih _)

theorem map_index_occurrences (nonce t : Text) : (occurrences nonce t).map (·.index) = indexes nonce t :=
  map_index_locate 0 _

theorem isEmpty_occurrences (nonce t : Text) : (occurrences nonce t).isEmpty = !isIn nonce t := by
  rw [isIn, ← map_index_occurrences, List.isEmpty_map, Bool.not_not]

theorem contains?_eq (nonce t : Text) : contains? nonce t = some (isIn nonce t) := by
  have hnext : next? nonce t 0 = some (occurrences nonce t).head? := next?_append [] t
  have hsome : (occurrences nonce t).head?.isSome = !(occurrences nonce t).isEmpty := by
    cases occurrences nonce t <;> rfl
  rw [contains?, hnext, Option.map_some, hsome, isEmpty_occurrences, Bool.not_not]

/-! ## Nothing is missed -/

/-- A marker stands in a text at the bytes of an occurrence, which has the marker's number. -/
def StandsAt (nonce t : Text) (o : Occurrence) : Prop :=
  ∃ before digits after, t = before ++ ((Piece.marker digits).source nonce ++ after) ∧ digits ≠ [] ∧
    (∀ c ∈ digits, c.isDigit = true) ∧ digitsValue 10 digits < indexLimit ∧
    o = occurrence nonce (byteLength before) digits

/-- The occurrences that are met from left to right: one that begins inside an earlier one of them is passed over. -/
structure Reported (nonce t : Text) (os : List Occurrence) : Prop where
  ordered : os.Pairwise fun a b => a.stop ≤ b.start
  mem_iff : ∀ o, o ∈ os ↔ StandsAt nonce t o ∧ ∀ a ∈ os, ¬(a.start < o.start ∧ o.start < a.stop)

theorem standsAt_of_read? {before t digits rest : Text} (h : read? nonce t = some (digits, rest)) :
    StandsAt nonce (before ++ t) (occurrence nonce (byteLength before) digits) :=
  ⟨before, digits, rest, congrArg _ (read?_source h), (read?_number h).1, read?_digits h, (read?_number h).2, rfl⟩

/-- **Only markers are met.** -/
theorem standsAt_of_mem_locate {before t : Text} {o : Occurrence}
    (h : o ∈ locate nonce (byteLength before) (pieces nonce t)) : StandsAt nonce (before ++ t) o := by
  fun_induction pieces nonce t generalizing before with
  | case1 => cases h
  | case2 c t digits rest hr ih =>
    rcases List.mem_cons.1 h with rfl | h
    · exact standsAt_of_read? hr
    · rw [← byteLength_append] at h
      rw [read?_source hr, ← List.append_assoc]
      exact ih h
  | case3 c t hr ih =>
    have hsplit := List.append_cons before c t
    rw [hsplit]
    refine ih ?_
    rw [byteLength_append]
    exact h

theorem start_le_of_mem_locate {start : Nat} {ps : List Piece} {o : Occurrence} (h : o ∈ locate nonce start ps) :
    start ≤ o.start := by
  induction ps generalizing start with
  | nil => cases h
  | cons p ps ih =>
    have hbehind : o ∈ locate nonce (start + byteLength (p.source nonce)) ps → start ≤ o.start := fun h =>
      Nat.le_trans (Nat.le_add_right ..) (ih h)
    cases p with
    | char c => exact hbehind h
    | marker digits =>
      rcases List.mem_cons.1 h with rfl | h
      · exact Nat.le_refl _
      · exact hbehind h

theorem pairwise_locate (start : Nat) (ps : List Piece) :
    (locate nonce start ps).Pairwise fun a b => a.stop ≤ b.start := by
  induction ps generalizing start with
  | nil => exact .nil
  | cons p ps ih =>
    cases p with
    | char c => exact ih _
    | marker digits => exact .cons (fun o ho => start_le_of_mem_locate ho) (ih _)

/-- **A marker is met, or it begins inside one that is met.** -/
theorem mem_locate_or_inside {digits : Text} (hne : digits ≠ []) (hd : ∀ c ∈ digits, c.isDigit = true)
    (hl : digitsValue 10 digits < indexLimit) {before x after t : Text}
    (ht : t = x ++ ((Piece.marker digits).source nonce ++ after)) :
    occurrence nonce (byteLength (before ++ x)) digits ∈ locate nonce (byteLength before) (pieces nonce t) ∨
      ∃ a ∈ locate nonce (byteLength before) (pieces nonce t),
        a.start < byteLength (before ++ x) ∧ byteLength (before ++ x) < a.stop := by
  have hread := @read?_marker nonce digits hne hd hl after
  fun_induction pieces nonce t generalizing before x with
  | case1 => simp [Piece.source, fence] at ht
  | case2 c t ds rest hr ih =>
    have hsource := read?_source hr
    have hsize := byteLength_append before ((Piece.marker ds).source nonce)
    -- right behind the marker that is met, or later
    have hbehind : ∀ y, x = (Piece.marker ds).source nonce ++ y →
        rest = y ++ ((Piece.marker digits).source nonce ++ after) →
        occurrence nonce (byteLength (before ++ x)) digits ∈
            locate nonce (byteLength before) (.marker ds :: pieces nonce rest) ∨
          ∃ a ∈ locate nonce (byteLength before) (.marker ds :: pieces nonce rest),
            a.start < byteLength (before ++ x) ∧ byteLength (before ++ x) < a.stop := by
      rintro y rfl hrest
      have hy := @ih (before ++ (Piece.marker ds).source nonce) y hrest
      rw [List.append_assoc, hsize] at hy
      rcases hy with hmem | ⟨a, ha, hinside⟩
      · exact .inl (List.mem_cons_of_mem _ hmem)
      · exact .inr ⟨a, List.mem_cons_of_mem _ ha, hinside⟩
    rw [ht] at hsource
    obtain ⟨y, hy, hrest⟩ | ⟨y, hy, hrest⟩ := List.append_eq_append_iff.1 hsource
    · by_cases hx : x = []
      · subst hx
        rw [ht, List.nil_append, hread] at hr
        obtain ⟨rfl, rfl⟩ := Prod.mk.inj (Option.some.inj hr)
        rw [List.append_nil]
        exact .inl (List.mem_cons_self ..)
      · by_cases hnil : y = []
        · rw [hnil, List.append_nil] at hy
          rw [hnil] at hrest
          exact hbehind [] (by rw [hy, List.append_nil]) hrest.symm
        · refine .inr ⟨occurrence nonce (byteLength before) ds, List.mem_cons_self .., ?_, ?_⟩
          · rw [byteLength_append]
            exact Nat.lt_add_of_pos_right (byteLength_pos hx)
          · rw [byteLength_append, stop_occurrence, hy, byteLength_append x]
            exact Nat.add_lt_add_left (Nat.lt_add_of_pos_right (byteLength_pos hnil)) _
    · exact hbehind y hy hrest
  | case3 c t hr ih =>
    cases x with
    | nil =>
      rw [List.nil_append] at ht
      rw [ht, hread] at hr
      cases hr
    | cons d x =>
      obtain ⟨rfl, htail⟩ := List.cons.inj ht
      have hx := @ih (before ++ [c]) x htail
      rw [List.append_assoc, byteLength_append before [c]] at hx
      exact hx

theorem StandsAt.start_lt_stop {t : Text} {o : Occurrence} (h : StandsAt nonce t o) : o.start < o.stop := by
  obtain ⟨before, digits, after, -, -, -, -, rfl⟩ := h
  exact Nat.lt_add_of_pos_right (byteLength_pos (by simp [Piece.source, fence]))

/-- **What is reported is exactly what stands in the text and begins inside nothing that is reported earlier.** -/
theorem reported_occurrences (nonce t : Text) : Reported nonce t (occurrences nonce t) where
  ordered := pairwise_locate 0 _
  mem_iff o := by
    constructor
    · intro ho
      have hstands := @standsAt_of_mem_locate nonce [] t o ho
      refine ⟨hstands, fun a ha hinside => ?_⟩
      have hapart : (occurrences nonce t).Pairwise fun a b => a.stop ≤ b.start ∨ b.stop ≤ a.start :=
        (pairwise_locate 0 _).imp .inl
      have hne : a ≠ o := by
        rintro rfl
        exact Nat.lt_irrefl _ hinside.1
      have hlt := hstands.start_lt_stop
      have : Std.Symm fun a b : Occurrence => a.stop ≤ b.start ∨ b.stop ≤ a.start := ⟨fun _ _ h => h.symm⟩
      rcases hapart.forall ha ho hne with h | h
      · omega
      · omega
    · rintro ⟨⟨x, digits, after, ht, hne, hd, hl, rfl⟩, hfree⟩
      rcases @mem_locate_or_inside nonce digits hne hd hl [] x after t ht with hmem | ⟨a, ha, hinside⟩
      · exact hmem
      · exact absurd hinside (hfree a ha)

theorem Reported.pairwise_start {t : Text} {os : List Occurrence} (h : Reported nonce t os) :
    os.Pairwise fun a b => a.start < b.start :=
  h.ordered.imp_of_mem fun ha _ hab => Nat.lt_of_lt_of_le ((h.mem_iff _).1 ha).1.start_lt_stop hab

theorem Reported.mem_iff_mem {t : Text} {os os' : List Occurrence} (h : Reported nonce t os)
    (h' : Reported nonce t os') (o : Occurrence) : o ∈ os ↔ o ∈ os' := by
  induction hn : o.start using Nat.strong_induction_on generalizing o with
  | _ n ih =>
    subst hn
    rw [h.mem_iff, h'.mem_iff]
    refine and_congr_right fun _ => ⟨fun hfree a ha hinside => ?_, fun hfree a ha hinside => ?_⟩
    · exact hfree a ((ih a.start hinside.1 a rfl).2 ha) hinside
    · exact hfree a ((ih a.start hinside.1 a rfl).1 ha) hinside

/-- **What stands in a text settles what is reported of it.** -/
theorem Reported.unique {t : Text} {os os' : List Occurrence} (h : Reported nonce t os)
    (h' : Reported nonce t os') : os = os' := by
  have : Std.Irrefl fun a b : Occurrence => a.start < b.start := ⟨fun _ => Nat.lt_irrefl _⟩
  have : Std.Antisymm fun a b : Occurrence => a.start < b.start := ⟨fun _ _ hab hba => absurd hba (Nat.lt_asymm hab)⟩
  exact h.pairwise_start.eq_of_mem_iff h'.pairwise_start (h.mem_iff_mem h')

end Marker
end SafeMarkup
