import SafeMarkup.Proofs.JoinedMarkers
import SafeMarkup.Proofs.MarkerReplacement
/-!
# Joined segments are cut apart again

Segments may begin and end with `$`, and hold anything that looks like a part of a marker, as long as none holds the
whole lead.  A lead that begins in a segment then cannot reach into the marker behind it (`lead_prefix_segment`): it
would end in a shorter row of `$` than it begins with.  So the search passes every character of a segment by, and finds
the markers that the segments were joined with.
-/
namespace SafeMarkup

namespace Marker

open Text

variable {nonce : Text}

/-! ## No lead reaches into a marker -/

/-- A fence with something else behind it does not overlap itself. -/
theorem fence_append_overlap {w s r : Text} (hw : '$' ∉ w) (hne : w ≠ []) (h : fence ++ w = s ++ r) (hs : s ≠ [])
    (hr : r <+: fence ++ w) : r = [] := by
  obtain ⟨d, w, rfl⟩ := List.exists_cons_of_ne_nil hne
  have hd : d ≠ '$' := fun he => hw (he ▸ List.mem_cons_self ..)
  -- behind one or two characters the row of `$` is too short, and behind the whole fence there is none
  match s with
  | [a] =>
    obtain ⟨-, rfl⟩ := List.cons.inj h
    simp [fence, hd] at hr
  | [a, b] =>
    obtain ⟨-, rfl⟩ := List.cons.inj (List.cons.inj h).2
    simp [fence, hd] at hr
  | a :: b :: c :: s =>
    have htail : d :: w = s ++ r := (List.cons.inj (List.cons.inj (List.cons.inj h).2).2).2
    cases r with
    | nil => rfl
    | cons e r =>
      obtain rfl : e = '$' := (List.cons_prefix_cons.1 hr).1
      exact absurd (by rw [htail]; simp) hw

theorem lead_prefix_segment (hn : '$' ∉ nonce) {s t : Text} {i : Nat} (hs : s ≠ [])
    (h : lead nonce <+: s ++ (write nonce i ++ t)) : lead nonce <+: s := by
  obtain ⟨u, hu⟩ := h
  obtain ⟨r, hr, -⟩ | ⟨r, hr, hwrite⟩ := List.append_eq_append_iff.1 hu
  · exact ⟨r, hr.symm⟩
  · have hlead : fence ++ (nonce ++ [':']) = s ++ r := by rw [← hr, lead, List.append_assoc]
    have hmarker : lead nonce <+: write nonce i ++ t := ⟨decimal i ++ (fence ++ t), by simp [write]⟩
    have hprefix : r <+: lead nonce := List.prefix_of_prefix_length_le ⟨u, hwrite.symm⟩ hmarker (by simp [hr])
    rw [lead, List.append_assoc] at hprefix
    obtain rfl := fence_append_overlap (by simpa using hn) (by simp) hlead hs hprefix
    exact ⟨[], by rw [List.append_nil, hr, List.append_nil]⟩

theorem read?_eq_none_of_lead {t : Text} (h : ¬lead nonce <+: t) : read? nonce t = none := by
  have hp : (lead nonce).isPrefixOf? t = none := by
    rw [← Option.not_isSome_iff_eq_none, List.isSome_isPrefixOf?_eq_isPrefixOf, List.isPrefixOf_iff_prefix]
    exact h
  rw [read?, hp]

/-! ## The pieces of joined segments -/

theorem pieces_of_not_infix {s : Text} (hs : ¬lead nonce <:+: s) : pieces nonce s = s.map .char := by
  induction s with
  | nil => exact pieces_nil nonce
  | cons c s ih =>
    rw [List.infix_cons_iff, not_or] at hs
    rw [pieces_of_read?_none (read?_eq_none_of_lead hs.1), ih hs.2, List.map_cons]

/-- **A segment in front of a marker is passed by.** -/
theorem pieces_append_write (hn : '$' ∉ nonce) {i : Nat} (hi : i < indexLimit) (t : Text) {s : Text}
    (hs : ¬lead nonce <:+: s) :
    pieces nonce (s ++ (write nonce i ++ t)) = s.map .char ++ .marker (decimal i) :: pieces nonce t := by
  induction s with
  | nil => exact pieces_eq_of_read? (read?_write hi t)
  | cons c s ih =>
    rw [List.infix_cons_iff, not_or] at hs
    have hlead : ¬lead nonce <+: c :: (s ++ (write nonce i ++ t)) := fun h =>
      hs.1 (lead_prefix_segment hn (List.cons_ne_nil c s) h)
    rw [List.cons_append, pieces_of_read?_none (read?_eq_none_of_lead hlead), ih hs.2, List.map_cons, List.cons_append]

/-- **The texts between the markers of joined segments are the segments.** -/
theorem runs_join (hn : '$' ∉ nonce) : ∀ (segments : List Text) (s : Text) (k : Nat),
    (∀ t ∈ s :: segments, ¬lead nonce <:+: t) → k + segments.length ≤ indexLimit →
    runs (pieces nonce (Template.join nonce k (s :: segments))) =
      (s, ((List.range' k segments.length).map decimal).zip segments)
  | [], s, k, h, _ => by
    have hchars := runs_map_char_append s []
    rw [List.append_nil] at hchars
    rw [Template.join, pieces_of_not_infix (h s (List.mem_singleton_self s)), hchars]
    exact congrArg (·, []) (List.append_nil s)
  | t :: segments, s, k, h, hk => by
    obtain ⟨hs, hts⟩ := List.forall_mem_cons.1 h
    rw [List.length_cons] at hk
    have hrest := runs_join hn segments t (k + 1) hts (by omega)
    rw [Template.join, List.append_assoc, pieces_append_write hn (by omega) _ hs, runs_map_char_append, runs, hrest,
      List.append_nil]
    rfl

theorem indexes_join (hn : '$' ∉ nonce) {s : Text} {segments : List Text}
    (hs : ∀ t ∈ s :: segments, ¬lead nonce <:+: t) (hl : segments.length ≤ indexLimit) :
    indexes nonce (Template.join nonce 0 (s :: segments)) = List.range segments.length := by
  have hfst : (((List.range' 0 segments.length).map decimal).zip segments).map Prod.fst =
      (List.range' 0 segments.length).map decimal := List.map_fst_zip (by simp)
  have hdigits := congrArg (List.map (digitsValue 10)) hfst
  rw [List.map_map, List.map_map] at hdigits
  rw [indexes, ← runs_indexes, runs_join hn segments s 0 hs (by omega), List.range_eq_range']
  exact hdigits.trans (List.map_id'' digitsValue_decimal _)

theorem between?_join (hn : '$' ∉ nonce) {s : Text} {segments : List Text}
    (hs : ∀ t ∈ s :: segments, ¬lead nonce <:+: t) (hl : segments.length ≤ indexLimit) :
    between? (Template.join nonce 0 (s :: segments)) 0 (occurrences nonce (Template.join nonce 0 (s :: segments))) =
      some (s :: segments) := by
  have hsnd : (((List.range' 0 segments.length).map decimal).zip segments).map Prod.snd = segments :=
    List.map_snd_zip (by simp)
  rw [between?_occurrences, runs_join hn segments s 0 hs (by omega)]
  exact congrArg (fun ss => some (s :: ss)) hsnd

/-! ## Values for all markers -/

/-- Where every marker has a value, no marker stays. -/
theorem zipWith_getD_some : ∀ (is : List Nat) (own : List Text) (v : Nat → Text), own.length = is.length →
    List.zipWith Option.getD (is.map fun i => some (v i)) own = is.map v
  | [], [], _, _ => rfl
  | i :: is, _ :: own, v, h => congrArg (v i :: ·) (zipWith_getD_some is own v (Nat.succ.inj h))

theorem run_replaceAll?_pure {m : Type → Type} [Monad m] [LawfulMonad m] {t : Text} {gaps : List Text}
    (hg : between? t 0 (occurrences nonce t) = some gaps) (v : Nat → Text) :
    (replaceAll? nonce (fun i => (pure (some (v i)) : m (Option Text))) t).run =
      pure (some (if isIn nonce t then .made (weave gaps ((indexes nonce t).map v)) else .unchanged)) := by
  have hlength : ((runs (pieces nonce t)).2.map fun r => (Piece.marker r.1).source nonce).length =
      (indexes nonce t).length := by rw [indexes, ← runs_indexes, List.length_map, List.length_map]
  rw [run_replaceAll? _ (find?_eq nonce t) hg (mapM_slice?_occurrences nonce t), map_index_occurrences,
    isEmpty_occurrences, List.mapM_pure, map_pure, zipWith_getD_some _ _ v hlength]
  cases isIn nonce t <;> rfl

/-- **Joined segments are cut apart again**, as many as there are numbers for.  The search finds the markers in their
order; between them are the segments, so that replacing puts its values between the segments; and one marker is found
as it was written. -/
theorem cut_join {segments : List Text} (hn : '$' ∉ nonce) (hne : segments ≠ [])
    (hs : ∀ s ∈ segments, ¬lead nonce <:+: s) (hl : segments.length ≤ indexLimit + 1) :
    (∃ os, find? nonce (Template.join nonce 0 segments) = some os ∧
      os.map (·.index) = List.range (segments.length - 1) ∧
      between? (Template.join nonce 0 segments) 0 os = some segments) ∧
    (∀ {m : Type → Type} [Monad m] [LawfulMonad m] (v : Nat → Text),
      (replaceAll? nonce (fun i => (pure (some (v i)) : m (Option Text))) (Template.join nonce 0 segments)).run =
        pure (some (if segments.length = 1 then .unchanged
          else .made (weave segments ((List.range (segments.length - 1)).map v))))) ∧
    ∀ i < indexLimit, find? nonce (write nonce i) = some [⟨0, byteLength (write nonce i), i⟩] := by
  obtain ⟨s, segments, rfl⟩ := List.exists_cons_of_ne_nil hne
  rw [List.length_cons] at hl
  have hindexes := indexes_join hn hs (by omega)
  have hgaps := between?_join hn hs (by omega)
  refine ⟨⟨_, find?_eq _ _, ?_, hgaps⟩, fun v => ?_, fun i hi => ?_⟩
  · rw [map_index_occurrences, hindexes]
    rfl
  · rw [run_replaceAll?_pure hgaps, isIn, hindexes]
    cases segments with
    | nil => rfl
    | cons t segments => simp
  · have hpieces := pieces_eq_of_read? (@read?_write nonce i hi [])
    rw [List.append_nil, pieces_nil] at hpieces
    rw [find?_eq, occurrences, hpieces]
    have hwrite : (Piece.marker (decimal i)).source nonce = write nonce i := rfl
    simp only [locate, Piece.index?, hwrite, Nat.zero_add, digitsValue_decimal]

/-- Segments of `$`, of digits, and with parts of markers. -/
theorem cut_join_parts :
    let segments := ["$$".toList, [], "5$$$".toList, "a:5$$$".toList, "$$$a".toList, "$".toList]
    ∃ os, find? ['a'] (Template.join ['a'] 0 segments) = some os ∧ os.map (·.index) = [0, 1, 2, 3, 4] ∧
      between? (Template.join ['a'] 0 segments) 0 os = some segments :=
  (cut_join (by decide) (by decide) (by decide) (by decide)).1

end Marker
end SafeMarkup
