import SafeMarkup.Proofs.MarkerReplacement
import SafeMarkup.Template.Basic
/-!
# Replacing in escaped texts

A slot is known by the markers of its text, and its markup is made from the text as it is written.  The two agree: the
written text has the same markers in the same order, with the literal pieces escaped between them, so replacing in the
escaped text is escaping what replacing in the text makes (`run_replaceAll?_escapeText`), and a slot asks for the markup
of every marker that was seen and of no other (`Template.resolve_slot`).
-/
namespace SafeMarkup

theorem escapeText_append (s t : Text) : escapeText (s ++ t) = escapeText s ++ escapeText t := List.flatMap_append

theorem escapeText_weave : ∀ ss vs : List Text,
    escapeText (Text.weave ss vs) = Text.weave (ss.map escapeText) (vs.map escapeText)
  | [], _ => rfl
  | _ :: _, [] => rfl
  | s :: ss, v :: vs => by
    rw [Text.weave, escapeText_append, escapeText_append, escapeText_weave ss vs]
    rfl

/-- Values made from other values are put beside those that are made from the other own texts. -/
theorem zipWith_getD_map (g : Text → Text) (vs : List (Option Text)) {own : List Text} (h : own.map g = own) :
    List.zipWith Option.getD (vs.map (Option.map g)) own = (List.zipWith Option.getD vs own).map g := by
  conv_lhs => rw [← h]
  rw [List.zipWith_map, List.map_zipWith]
  congr 1
  funext v s
  cases v <;> rfl

namespace Marker

open Text

variable {nonce : Text}

/-! ## The pieces of an escaped text -/

theorem runs_flatMap_escaped (ps : List Piece) : runs (ps.flatMap Piece.escaped) =
    (escapeText (runs ps).1, (runs ps).2.map fun r => (r.1, escapeText r.2)) := by
  induction ps with
  | nil => rfl
  | cons p ps ih =>
    rw [List.flatMap_cons]
    cases p with
    | char c =>
      rw [Piece.escaped, runs_map_char_append, ih]
      rfl
    | marker digits =>
      change runs (.marker digits :: ps.flatMap Piece.escaped) = _
      rw [runs, ih]
      rfl

theorem marker_mem_of_mem_runs {ps : List Piece} {r : Text × Text} (h : r ∈ (runs ps).2) : .marker r.1 ∈ ps := by
  induction ps with
  | nil => cases h
  | cons p ps ih =>
    cases p with
    | char c => exact List.mem_cons_of_mem _ (ih h)
    | marker digits =>
      rcases List.mem_cons.1 h with rfl | h
      · exact List.mem_cons_self ..
      · exact List.mem_cons_of_mem _ (ih h)

/-- The literal pieces of a text. -/
def literals (nonce t : Text) : List Text := (runs (pieces nonce t)).1 :: (runs (pieces nonce t)).2.map (·.2)

/-- The markers of a text as they are written. -/
def written (nonce t : Text) : List Text := (runs (pieces nonce t)).2.map fun r => (Piece.marker r.1).source nonce

theorem literals_escapeText (hn : IsNonce nonce) (t : Text) :
    literals nonce (escapeText t) = (literals nonce t).map escapeText := by
  rw [literals, pieces_escapeText hn, runs_flatMap_escaped, literals, List.map_cons, List.map_map, List.map_map]
  rfl

theorem written_escapeText (hn : IsNonce nonce) (t : Text) : written nonce (escapeText t) = written nonce t := by
  rw [written, pieces_escapeText hn, runs_flatMap_escaped, written, List.map_map]
  rfl

/-- No escape changes a marker. -/
theorem map_escapeText_written (hn : IsNonce nonce) (t : Text) :
    (written nonce t).map escapeText = written nonce t := by
  refine (List.map_congr_left fun s hs => ?_).trans (List.map_id _)
  obtain ⟨r, hr, rfl⟩ := List.mem_map.1 hs
  have hdigits := digits_of_mem_pieces (marker_mem_of_mem_runs hr)
  exact (List.flatMap_congr fun c hc => inText_of_mem_source hn hdigits hc).trans (List.flatMap_singleton' _)

/-! ## Replacing -/

namespace Replaced

/-- What replacing makes, with what is made changed by `g`. -/
def map (g : Text → Text) : Replaced → Replaced
  | unchanged => unchanged
  | made t => made (g t)

/-- The text that replacing leaves of `t`. -/
def result (t : Text) : Replaced → Text
  | unchanged => t
  | made u => u

theorem result_map (g : Text → Text) (t : Text) (r : Replaced) : (r.map g).result (g t) = g (r.result t) := by
  cases r <;> rfl

end Replaced

section

variable {m : Type → Type} [Monad m] [LawfulMonad m] (f : Nat → m (Option Text))

theorem mapM_map_left (g : Text → Text) (is : List Nat) :
    is.mapM (fun i => Option.map g <$> f i) = List.map (Option.map g) <$> is.mapM f := by
  induction is with
  | nil => simp
  | cons i is ih =>
    simp only [List.mapM_cons, ih, bind_map_left, map_bind, bind_pure_comp, Functor.map_map, List.map_cons]

theorem replaceM_eq_weave (nonce t : Text) : replaceM nonce f t =
    (fun vs => weave (literals nonce t) (List.zipWith Option.getD vs (written nonce t))) <$>
      (indexes nonce t).mapM f := by
  rw [replaceM_eq, mapM_replacementM]
  rfl

/-- **Replacing in an escaped text** by escaped values escapes what replacing in the text makes. -/
theorem replaceM_escapeText (hn : IsNonce nonce) (t : Text) :
    replaceM nonce (fun i => Option.map escapeText <$> f i) (escapeText t) = escapeText <$> replaceM nonce f t := by
  have hweave : ∀ vs : List (Option Text),
      weave (literals nonce (escapeText t)) (List.zipWith Option.getD (vs.map (Option.map escapeText))
        (written nonce (escapeText t))) =
      escapeText (weave (literals nonce t) (List.zipWith Option.getD vs (written nonce t))) := fun vs => by
    rw [literals_escapeText hn, written_escapeText hn, zipWith_getD_map escapeText vs (map_escapeText_written hn t),
      escapeText_weave]
  rw [replaceM_eq_weave, replaceM_eq_weave, indexes_escapeText hn, mapM_map_left, Functor.map_map, Functor.map_map]
  exact congrArg (· <$> (indexes nonce t).mapM f) (funext hweave)

/-- The same of the search and replacement by bytes; a text is made anew exactly if the escaped text is. -/
theorem run_replaceAll?_escapeText (hn : IsNonce nonce) (t : Text) :
    (replaceAll? nonce (fun i => Option.map escapeText <$> f i) (escapeText t)).run =
      Option.map (Replaced.map escapeText) <$> (replaceAll? nonce f t).run := by
  have hin : isIn nonce (escapeText t) = isIn nonce t := by rw [isIn, isIn, indexes_escapeText hn]
  rw [run_replaceAll?_eq, run_replaceAll?_eq, replaceM_escapeText f hn, hin, Functor.map_map, Functor.map_map]
  cases isIn nonce t <;> rfl

end

end Marker

namespace Template

open Marker

variable (nonce : Text) (values : List Interpolation)

/-- **A slot asks for the markup of every marker of its text**, in their order and up to the first refusal, and for no
other.  What it holds is read from the markup given and the literal pieces, which are escaped unless the element is one
of raw text. -/
theorem resolve_slot (hn : IsNonce nonce) (name : Text) (as : List (Attribute Text)) {t : Text}
    (ht : isIn nonce t = true) : resolve nonce values (.element name as [.text t]) = (fun vs =>
      .element name (as.map (fillAttribute nonce values)) (content name (Text.weave
        ((literals nonce t).map (if Element.isRawText name then id else escapeText))
        (List.zipWith Option.getD vs (written nonce t))))) <$> (indexes nonce t).mapM (markup? values) := by
  have hslot : isSlot nonce [.text t] = true := ht
  have hinner : Node.writeAll (Element.isRawText name) [.text t] =
      if Element.isRawText name then t else escapeText t := by
    rw [Node.writeAll, Node.write, Node.writeAll, List.append_nil]
  rw [resolve, if_pos hslot, hinner, splice, replaceM_eq_weave]
  cases Element.isRawText name with
  | true =>
    simp only [if_true, List.map_id, bind_pure_comp, Functor.map_map]
  | false =>
    simp only [Bool.false_eq_true, if_false, literals_escapeText hn, written_escapeText hn, indexes_escapeText hn,
      bind_pure_comp, Functor.map_map]

/-- **What is seen in a text is what is replaced in the escaped text.**  The markers found in both have the same numbers
and spellings in the same order, and the literal pieces of the one are escaped in the other.  Replacing in the escaped
text by escaped values is escaping what replacing in the text makes, where the values are asked for one by one and may
have effects.  So a slot, which is known by its text, puts every marker found there to the check of its value. -/
theorem escaped_markers (hn : IsNonce nonce) (t : Text) : ∃ os os' gaps own,
    find? nonce t = some os ∧ find? nonce (escapeText t) = some os' ∧ os'.map (·.index) = os.map (·.index) ∧
    between? t 0 os = some gaps ∧ between? (escapeText t) 0 os' = some (gaps.map escapeText) ∧
    os.mapM (fun o => Text.slice? o.start o.stop t) = some own ∧
    os'.mapM (fun o => Text.slice? o.start o.stop (escapeText t)) = some own ∧
    (∀ {m : Type → Type} [Monad m] [LawfulMonad m] (f : Nat → m (Option Text)),
      (replaceAll? nonce f t).run = (fun vs => some (if os.isEmpty then .unchanged
        else .made (Text.weave gaps (List.zipWith Option.getD vs own)))) <$> (os.map (·.index)).mapM f ∧
      Option.map (Replaced.result (escapeText t)) <$>
          (replaceAll? nonce (fun i => Option.map escapeText <$> f i) (escapeText t)).run =
        Option.map (fun r => escapeText (r.result t)) <$> (replaceAll? nonce f t).run) ∧
    ∀ name as, isSlot nonce [.text t] = true → resolve nonce values (.element name as [.text t]) = (fun vs =>
      .element name (as.map (fillAttribute nonce values)) (content name (Text.weave
        (gaps.map (if Element.isRawText name then id else escapeText)) (List.zipWith Option.getD vs own)))) <$>
          (os.map (·.index)).mapM (markup? values) := by
  have hgaps : between? t 0 (occurrences nonce t) = some (literals nonce t) := between?_occurrences nonce t
  have hgaps' : between? (escapeText t) 0 (occurrences nonce (escapeText t)) =
      some ((literals nonce t).map escapeText) :=
    (between?_occurrences nonce (escapeText t)).trans (congrArg some (literals_escapeText hn t))
  have hown : (occurrences nonce t).mapM (fun o => Text.slice? o.start o.stop t) = some (written nonce t) :=
    mapM_slice?_occurrences nonce t
  have hown' : (occurrences nonce (escapeText t)).mapM (fun o => Text.slice? o.start o.stop (escapeText t)) =
      some (written nonce t) :=
    (mapM_slice?_occurrences nonce (escapeText t)).trans (congrArg some (written_escapeText hn t))
  refine ⟨_, _, _, _, find?_eq nonce t, find?_eq nonce (escapeText t), ?_, hgaps, hgaps', hown, hown',
    fun f => ⟨run_replaceAll? f (find?_eq nonce t) hgaps hown, ?_⟩, fun name as ht => ?_⟩
  · rw [map_index_occurrences, map_index_occurrences, indexes_escapeText hn]
  · rw [run_replaceAll?_escapeText f hn, Functor.map_map]
    congr 1
    funext r
    cases r with
    | none => rfl
    | some r => exact congrArg some (r.result_map escapeText t)
  · rw [map_index_occurrences]
    exact resolve_slot nonce values hn name as ht

/-- References and broken markers around two markers. -/
theorem escaped_markers_twice : IsNonce ['a', '0'] ∧
    ∃ os', find? ['a', '0'] (escapeText "<&$$$a0:1$$$a0:7$$$>$$$a0:&$$$".toList) = some os' ∧ os'.map (·.index) = [1] ∧
      between? (escapeText "<&$$$a0:1$$$a0:7$$$>$$$a0:&$$$".toList) 0 os' =
        some ["&lt;&amp;".toList, "a0:7$$$&gt;$$$a0:&amp;$$$".toList] := by
  have hn : IsNonce ['a', '0'] := by decide
  obtain ⟨os, os', gaps, own, hf, hf', hindexes, hg, hg', -⟩ :=
    escaped_markers ['a', '0'] [] hn "<&$$$a0:1$$$a0:7$$$>$$$a0:&$$$".toList
  obtain rfl := Option.some.inj ((find?_eq _ _).symm.trans hf)
  have hgaps := hg.symm.trans (between?_occurrences _ _)
  refine ⟨hn, os', hf', hindexes.trans (by decide +kernel), hg'.trans ?_⟩
  rw [Option.some.inj hgaps]
  decide +kernel

end Template
end SafeMarkup
