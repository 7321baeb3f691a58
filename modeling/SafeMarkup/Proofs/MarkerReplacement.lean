import SafeMarkup.Proofs.MarkerSearch
/-!
# What replacing markers makes

The texts between the markers and the markers themselves, both cut out by the ends of what the search finds, are the
whole text (`Marker.weave_runs`).  Replacing copies the former and puts the value of each marker between them, or the
marker itself where there is no value (`Marker.run_replaceAll?`), so it is a map over the pieces
(`Marker.run_replaceAll?_eq`) and never looks at a value again.
-/
namespace SafeMarkup

/-- Some texts with others between them. -/
def Text.weave : List Text → List Text → Text
  | s :: ss, v :: vs => s ++ (v ++ weave ss vs)
  | s :: _, [] => s
  | [], _ => []

theorem Text.weave_cons_cons (c : Char) (s : Text) (ss vs : List Text) :
    Text.weave ((c :: s) :: ss) vs = c :: Text.weave (s :: ss) vs := by cases vs <;> rfl

namespace Marker

open Text

variable {nonce : Text}

/-! ## What stands between the markers -/

/-- The texts between some occurrences, the first from byte `start` on and the last up to the end. -/
def between? (t : Text) (start : Nat) : List Occurrence → Option (List Text)
  | [] => (fromByte? start t).map ([·])
  | o :: os => do
    let s ← slice? start o.start t
    let ss ← between? t o.stop os
    return s :: ss

/-- The text before the first marker of some pieces, and the digits of each marker with the text behind it. -/
def runs : List Piece → Text × List (Text × Text)
  | [] => ([], [])
  | .char c :: ps => (c :: (runs ps).1, (runs ps).2)
  | .marker digits :: ps => ([], (digits, (runs ps).1) :: (runs ps).2)

/-- **The literal pieces with the markers between them are the text.** -/
theorem weave_runs (ps : List Piece) : weave ((runs ps).1 :: (runs ps).2.map (·.2))
    ((runs ps).2.map fun r => (Piece.marker r.1).source nonce) = ps.flatMap (Piece.source nonce) := by
  induction ps with
  | nil => rfl
  | cons p ps ih =>
    rw [List.flatMap_cons, ← ih]
    cases p with
    | char c => exact weave_cons_cons ..
    | marker digits => rfl

theorem runs_indexes (ps : List Piece) :
    (runs ps).2.map (fun r => Text.digitsValue 10 r.1) = ps.filterMap Piece.index? := by
  induction ps with
  | nil => rfl
  | cons p ps ih =>
    cases p with
    | char c => exact ih
    | marker digits => exact congrArg (List.cons _) ih

theorem runs_map_char_append (s : Text) (ps : List Piece) :
    runs (s.map .char ++ ps) = (s ++ (runs ps).1, (runs ps).2) := by
  induction s with
  | nil => rfl
  | cons c s ih => rw [List.map_cons, List.cons_append, runs, ih, List.cons_append]

theorem between?_locate (before x : Text) (ps : List Piece) :
    between? (before ++ (x ++ ps.flatMap (Piece.source nonce))) (byteLength before)
      (locate nonce (byteLength (before ++ x)) ps) = some ((x ++ (runs ps).1) :: (runs ps).2.map (·.2)) := by
  induction ps generalizing before x with
  | nil =>
    rw [locate, between?, fromByte?_append]
    rfl
  | cons p ps ih =>
    cases p with
    | char c =>
      have hc := ih before (x ++ [c])
      rw [← List.append_assoc before x, byteLength_append (before ++ x), List.append_assoc x, List.append_assoc x] at hc
      exact hc
    | marker digits =>
      have hd := ih (before ++ x ++ (Piece.marker digits).source nonce) []
      rw [List.append_nil, byteLength_append, List.append_assoc (before ++ x), List.append_assoc before] at hd
      have hx := slice?_append before x ((Piece.marker digits).source nonce ++ ps.flatMap (Piece.source nonce))
      rw [← byteLength_append] at hx
      rw [List.flatMap_cons]
      rw [List.nil_append, List.nil_append] at hd
      simp only [locate, Piece.index?, between?, hx, hd, Option.bind_eq_bind, Option.bind_some, runs, List.append_nil,
        List.map_cons]
      rfl

theorem mapM_slice?_locate (before : Text) (ps : List Piece) :
    (locate nonce (byteLength before) ps).mapM
        (fun o => slice? o.start o.stop (before ++ ps.flatMap (Piece.source nonce))) =
      some ((runs ps).2.map fun r => (Piece.marker r.1).source nonce) := by
  induction ps generalizing before with
  | nil => rfl
  | cons p ps ih =>
    have hp := ih (before ++ p.source nonce)
    rw [byteLength_append, List.append_assoc] at hp
    cases p with
    | char c => exact hp
    | marker digits =>
      have hslice := slice?_append before ((Piece.marker digits).source nonce) (ps.flatMap (Piece.source nonce))
      rw [List.flatMap_cons, locate]
      simp only [Piece.index?, List.mapM_cons, hslice, hp, Option.bind_eq_bind, Option.bind_some]
      rfl

theorem between?_occurrences (nonce t : Text) : between? t 0 (occurrences nonce t) =
    some ((runs (pieces nonce t)).1 :: (runs (pieces nonce t)).2.map (·.2)) := by
  have h := @between?_locate nonce [] [] (pieces nonce t)
  rwa [List.nil_append, List.nil_append, List.nil_append, pieces_source] at h

theorem mapM_slice?_occurrences (nonce t : Text) : (occurrences nonce t).mapM (fun o => slice? o.start o.stop t) =
    some ((runs (pieces nonce t)).2.map fun r => (Piece.marker r.1).source nonce) := by
  have h := @mapM_slice?_locate nonce [] (pieces nonce t)
  rwa [List.nil_append, pieces_source] at h

section

variable {m : Type → Type} [Monad m] [LawfulMonad m] (f : Nat → m (Option Text)) {t : Text}

theorem run_copy?_cons {start : Nat} {o : Occurrence} {s own : Text} (hs : slice? start o.start t = some s)
    (ho : slice? o.start o.stop t = some own) (os : List Occurrence) :
    (copy? f t start (o :: os)).run = do
      let value ← f o.index
      let behind ← (copy? f t o.stop os).run
      return behind.map fun b => s ++ (value.getD own ++ b) := by
  have hbehind : ∀ own : Text, (do
      let behind ← copy? f t o.stop os
      return s ++ own ++ behind : OptionT m Text).run = do
        let behind ← (copy? f t o.stop os).run
        return behind.map fun b => s ++ (own ++ b) := fun own => by
    rw [OptionT.run_bind, Option.elimM]
    refine bind_congr fun behind => ?_
    cases behind with
    | none => rfl
    | some b => simp only [Option.elim_some, Option.map_some, List.append_assoc, OptionT.run_pure]
  have hcopy : (OptionT.mk (pure (some own)) : OptionT m Text) = pure own := rfl
  rw [copy?, hs, ho, hcopy]
  simp only [OptionT.run_bind, OptionT.run_mk, OptionT.run_lift, Option.elimM, pure_bind, bind_assoc, Option.elim_some]
  refine bind_congr fun value => ?_
  cases value with
  | none => exact hbehind own
  | some v => exact hbehind v

theorem run_copy? : ∀ {os : List Occurrence} {start : Nat} {gaps own : List Text}, between? t start os = some gaps →
      os.mapM (fun o => slice? o.start o.stop t) = some own →
      (copy? f t start os).run =
        (fun vs => some (weave gaps (List.zipWith Option.getD vs own))) <$> (os.map (·.index)).mapM f
  | [], start, gaps, own, hg, ho => by
    obtain ⟨rest, hrest, rfl⟩ := Option.map_eq_some_iff.1 hg
    simp [copy?, hrest, weave]
  | o :: os, start, gaps, own, hg, ho => by
    simp only [between?, Option.bind_eq_bind, Option.bind_eq_some_iff] at hg
    obtain ⟨s, hs, ss, hss, hgaps⟩ := hg
    obtain rfl := Option.some.inj hgaps
    simp only [List.mapM_cons, Option.bind_eq_bind, Option.bind_eq_some_iff] at ho
    obtain ⟨v, hv, vs, hvs, hown⟩ := ho
    obtain rfl := Option.some.inj hown
    rw [run_copy?_cons f hs hv, run_copy? hss hvs]
    simp [weave]

/-- **Replacing asks for the values of the markers in order**, and puts them between the texts that it copies. -/
theorem run_replaceAll? {os : List Occurrence} {gaps own : List Text} (hf : find? nonce t = some os)
    (hg : between? t 0 os = some gaps) (ho : os.mapM (fun o => slice? o.start o.stop t) = some own) :
    (replaceAll? nonce f t).run = (fun vs => some (if os.isEmpty then .unchanged
      else .made (weave gaps (List.zipWith Option.getD vs own)))) <$> (os.map (·.index)).mapM f := by
  rw [replaceAll?, hf]
  simp only [OptionT.run_bind, OptionT.run_mk, Option.elimM, pure_bind, Option.elim_some]
  cases os with
  | nil => simp
  | cons o os =>
    simp only [List.isEmpty_cons, Bool.false_eq_true, if_false, OptionT.run_bind, Option.elimM, run_copy? f hg ho]
    simp

/-- What a piece is replaced by. -/
def Piece.replacementM (nonce : Text) (p : Piece) : m Text :=
  match p.index? with
  | none => pure (p.source nonce)
  | some i => (p.replacement nonce ·) <$> f i

theorem replaceM_eq (nonce t : Text) :
    replaceM nonce f t = List.flatten <$> (pieces nonce t).mapM (Piece.replacementM f nonce) :=
  bind_pure_comp ..

/-- The replaced pieces are the texts between the markers with the values between them. -/
theorem mapM_replacementM (ps : List Piece) : List.flatten <$> ps.mapM (Piece.replacementM f nonce) =
    (fun vs => weave ((runs ps).1 :: (runs ps).2.map (·.2))
      (List.zipWith Option.getD vs ((runs ps).2.map fun r => (Piece.marker r.1).source nonce))) <$>
      (ps.filterMap Piece.index?).mapM f := by
  induction ps with
  | nil => simp [runs, weave]
  | cons p ps ih =>
    have hput := fun v : Text => congrArg (Functor.map (v ++ ·)) ih
    simp only [Functor.map_map] at hput
    cases p with
    | char c =>
      rw [List.filterMap_cons_none rfl]
      simpa [Piece.replacementM, Piece.index?, Piece.source, runs, weave_cons_cons] using hput [c]
    | marker digits =>
      have hp : Piece.replacementM f nonce (.marker digits) =
          (fun v => v.getD ((Piece.marker digits).source nonce)) <$> f (digitsValue 10 digits) := rfl
      have hi : Piece.index? (.marker digits) = some (digitsValue 10 digits) := rfl
      simp only [List.filterMap_cons_some hi, List.mapM_cons, hp, runs, List.map_cons, bind_map_left, map_bind,
        List.flatten_cons, List.zipWith_cons_cons, weave, List.nil_append, bind_pure_comp, Functor.map_map, hput]

/-- **Replacing is mapping the pieces**; a text without markers is not made anew. -/
theorem run_replaceAll?_eq (nonce t : Text) : (replaceAll? nonce f t).run =
    (fun out => some (if isIn nonce t then .made out else .unchanged)) <$> replaceM nonce f t := by
  rw [run_replaceAll? f (find?_eq nonce t) (between?_occurrences nonce t) (mapM_slice?_occurrences nonce t),
    map_index_occurrences, isEmpty_occurrences, replaceM_eq, mapM_replacementM, Functor.map_map]
  cases isIn nonce t <;> rfl

end

/-! ## Values asked for one by one -/

section

variable {σ ε : Type} (f : Nat → ExceptT ε (StateM σ) (Option Text))

/-- The values of some numbers are given one after the other, from one state to another. -/
inductive Given : σ → List Nat → List (Option Text) → σ → Prop where
  | nil (s : σ) : Given s [] [] s
  | cons {s s₁ s₂ : σ} {i : Nat} {is : List Nat} {v : Option Text} {vs : List (Option Text)}
    (hv : (f i).run.run s = (.ok v, s₁)) (hvs : Given s₁ is vs s₂) : Given s (i :: is) (v :: vs) s₂

theorem run_mapM_of_error {i : Nat} {s s' : σ} {e : ε} (h : (f i).run.run s = (.error e, s')) (is : List Nat) :
    ((i :: is).mapM f).run.run s = (.error e, s') := by
  rw [List.mapM_cons, ExceptT.run_bind, StateT.run_bind, h]
  rfl

theorem run_mapM_of_ok {i : Nat} {s s₁ : σ} {v : Option Text} (h : (f i).run.run s = (.ok v, s₁)) (is : List Nat) :
    ((i :: is).mapM f).run.run s = ((is.mapM f).run.run s₁).map (Except.map (v :: ·)) id := by
  rw [List.mapM_cons, ExceptT.run_bind, StateT.run_bind, h]
  change (is.mapM f >>= fun vs => pure (v :: vs) : ExceptT ε (StateM σ) _).run.run s₁ = _
  rw [ExceptT.run_bind, StateT.run_bind]
  generalize (is.mapM f).run.run s₁ = r
  rcases r with ⟨_ | vs, s₂⟩ <;> rfl

/-- **Asking stops at the first failure.** -/
theorem run_mapM_cases : ∀ (is : List Nat) (s : σ),
    (∃ vs s', Given f s is vs s' ∧ (is.mapM f).run.run s = (.ok vs, s')) ∨
      ∃ asked i rest vs s₁ e s', is = asked ++ i :: rest ∧ Given f s asked vs s₁ ∧
        (f i).run.run s₁ = (.error e, s') ∧ (is.mapM f).run.run s = (.error e, s')
  | [], s => .inl ⟨[], s, .nil s, rfl⟩
  | i :: is, s => by
    rcases hi : (f i).run.run s with ⟨e | v, s₁⟩
    · exact .inr ⟨[], i, is, [], s, e, s₁, rfl, .nil s, hi, run_mapM_of_error f hi is⟩
    · rcases run_mapM_cases is s₁ with ⟨vs, s', hgiven, hrun⟩ | ⟨asked, j, rest, vs, s₂, e, s', rfl, hgiven, hj, hrun⟩
      · refine .inl ⟨v :: vs, s', .cons hi hgiven, ?_⟩
        rw [run_mapM_of_ok f hi, hrun]
        rfl
      · refine .inr ⟨i :: asked, j, rest, v :: vs, s₂, e, s', rfl, .cons hi hgiven, hj, ?_⟩
        rw [run_mapM_of_ok f hi, hrun]
        rfl

end

/-- **Searching and replacing are exact.**  The search finds what the text settles, cutting at the ends of what it finds
gives texts of which the text is woven, and replacing weaves the same texts with the values of the markers, which are
asked for in order; or it stops at the first value that fails. -/
theorem replaceAll?_exact (nonce t : Text) {σ ε : Type} (f : Nat → ExceptT ε (StateM σ) (Option Text)) (s : σ) :
    ∃ os gaps own, find? nonce t = some os ∧ contains? nonce t = some (!os.isEmpty) ∧
      (Reported nonce t os ∧ ∀ os', Reported nonce t os' → os' = os) ∧
      between? t 0 os = some gaps ∧ os.mapM (fun o => slice? o.start o.stop t) = some own ∧ weave gaps own = t ∧
      ((∃ vs s', Given f s (os.map (·.index)) vs s' ∧ (replaceAll? nonce f t).run.run.run s =
          (.ok (some (if os.isEmpty then .unchanged else .made (weave gaps (List.zipWith Option.getD vs own)))), s')) ∨
        ∃ asked i rest vs s₁ e s', os.map (·.index) = asked ++ i :: rest ∧ Given f s asked vs s₁ ∧
          (f i).run.run s₁ = (.error e, s') ∧ (replaceAll? nonce f t).run.run.run s = (.error e, s')) := by
  have hg := between?_occurrences nonce t
  have ho := mapM_slice?_occurrences nonce t
  refine ⟨occurrences nonce t, _, _, find?_eq nonce t, ?_, ⟨reported_occurrences nonce t, fun os' h =>
    h.unique (reported_occurrences nonce t)⟩, hg, ho, ?_, ?_⟩
  · rw [contains?_eq, isEmpty_occurrences, Bool.not_not]
  · rw [weave_runs, pieces_source]
  · have hrun := run_replaceAll? f (find?_eq nonce t) hg ho
    rcases run_mapM_cases f ((occurrences nonce t).map (·.index)) s with
      ⟨vs, s', hgiven, hmap⟩ | ⟨asked, i, rest, vs, s₁, e, s', hsplit, hgiven, hi, hmap⟩
    · refine .inl ⟨vs, s', hgiven, ?_⟩
      rw [hrun, ExceptT.run_map, StateT.run_map, hmap]
      rfl
    · refine .inr ⟨asked, i, rest, vs, s₁, e, s', hsplit, hgiven, hi, ?_⟩
      rw [hrun, ExceptT.run_map, StateT.run_map, hmap]
      rfl

end Marker
end SafeMarkup
