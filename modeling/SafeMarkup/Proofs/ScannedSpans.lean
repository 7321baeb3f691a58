import SafeMarkup.Proofs.ScannedTags
import SafeMarkup.Proofs.RawTextBodies
/-!
# Spans by their bytes

Each pass of the scanner takes the span that reading takes, whatever the span is (`Scanner.advances_pass?`): it ends where
the span ends, behind where it began, and the tokens that it adds have the names of the span's tokens.
-/
namespace SafeMarkup

open Text

variable {s : Input} {k : Nat} {t : Text}

/-! ## Searching for markup -/

/-- A search by bytes finds where a text is cut. -/
theorem Text.findByte?_eq_cutAt {p : Text} (hp : p ≠ []) (t : Text) : findByte? p t =
    if (cutAt (p.isPrefixOf ·) t).2.isEmpty then none else some (byteLength (cutAt (p.isPrefixOf ·) t).1) := by
  induction t with
  | nil =>
    rw [findByte?, if_neg (by simpa using hp)]
    rfl
  | cons c t ih =>
    rw [findByte?]
    cases hpre : p.isPrefixOf (c :: t) with
    | true =>
      rw [cutAt_of_pos hpre]
      rfl
    | false =>
      rw [if_neg Bool.false_ne_true, cutAt_of_neg hpre, ih]
      simp only
      split <;> rfl

theorem Text.cutAt_singleton (c : Char) (t : Text) :
    cutAt ([c].isPrefixOf ·) t = (t.takeWhile (· != c), t.dropWhile (· != c)) := by
  induction t with
  | nil => rfl
  | cons d t ih =>
    by_cases hd : d = c
    · subst hd
      rw [cutAt_of_pos (by simp), List.takeWhile_cons_of_neg (by simp), List.dropWhile_cons_of_neg (by simp)]
    · have hne : [c].isPrefixOf (d :: t) = false := by
        rw [List.isPrefixOf, beq_false_of_ne (Ne.symm hd), Bool.false_and]
      rw [cutAt_of_neg hne, ih, List.takeWhile_cons_of_pos (by simpa using hd),
        List.dropWhile_cons_of_pos (by simpa using hd)]

/-- A text is cut at a condition that asks for a `<`, and is searched for a `<` from some place before the cut on. -/
theorem Input.seek?_cutAt {q : Text → Bool} (hq : ∀ v, q v = true → ∃ u, v = '<' :: u) (h : s.from? k = some t) {i : Nat}
    (hi : i ≤ k + byteLength (cutAt q t).1) :
    (s.seek? '<' i s.size = some none ∧ (cutAt q t).2 = []) ∨
      ∃ j u, s.seek? '<' i s.size = some (some j) ∧ i ≤ j ∧ s.from? j = some ('<' :: u) ∧
        ((j = k + byteLength (cutAt q t).1 ∧ (cutAt q t).2 = '<' :: u ∧ q ('<' :: u) = true) ∨
          (j < k + byteLength (cutAt q t).1 ∧ (k ≤ j → q ('<' :: u) = false))) := by
  have hcut := Input.from?_cutAt q h
  have hsize := Input.add_byteLength hcut
  have hends : (cutAt q t).2 = [] ∨ q (cutAt q t).2 = true ∧ s.byte? (k + byteLength (cutAt q t).1) = some '<' := by
    rcases cutAt_snd q t with hnil | hend
    · exact .inl hnil
    · obtain ⟨u, hu⟩ := hq _ hend
      rw [hu] at hcut
      exact .inr ⟨hend, Input.byte?_cons hcut (by decide)⟩
  rcases Input.seek?_cases (c := '<') (by omega : i ≤ s.size) (Nat.le_refl _) with
    ⟨hseek, hnone⟩ | ⟨j, hseek, hij, hj, hbyte, hfirst⟩
  · rcases hends with hnil | ⟨-, hlt⟩
    · exact .inl ⟨hseek, hnil⟩
    · exact absurd hlt (hnone _ hi (Input.lt_size_of_byte? hlt))
  · obtain ⟨u, hu⟩ := Input.exists_from?_of_byte? hbyte (by decide)
    refine .inr ⟨j, u, hseek, hij, hu, ?_⟩
    rcases Nat.lt_trichotomy j (k + byteLength (cutAt q t).1) with hlt | rfl | hgt
    · exact .inr ⟨hlt, fun hkj => Input.eq_false_of_lt_cutAt h hu hkj hlt⟩
    · have hrest := Option.some.inj (hcut.symm.trans hu)
      rcases hends with hnil | ⟨hend, -⟩
      · rw [hnil] at hrest
        cases hrest
      · exact .inl ⟨rfl, hrest, hrest ▸ hend⟩
    · rcases hends with hnil | ⟨-, hlt⟩
      · rw [hnil, byteLength] at hsize
        omega
      · exact absurd hlt (hfirst _ hi hgt)

namespace Scanner

theorem exists_of_opensMarkup {v : Text} (h : Span.opensMarkup v = true) : ∃ u, v = '<' :: u := by
  cases v with
  | nil => cases h
  | cons c u =>
    by_cases hc : c = '<'
    · exact ⟨u, by rw [hc]⟩
    · rw [Span.opensMarkup_of_ne hc] at h
      cases h

theorem opensMarkup?_eq {u : Text} (h : s.from? k = some ('<' :: u)) :
    opensMarkup? s k = some (Span.opensMarkup ('<' :: u)) := by
  have hnext := Input.from?_succ h (by decide)
  have hguard : (guard (('<' == '<') = true) : Option Unit) = some () := rfl
  have htest : AsciiTest fun c => c.isAlpha || c == '!' || c == '?' ||
      (c == '/' && (s.byte? (k + 2)).any fun c => c.isAlpha || c == '>') :=
    ((asciiTest_isAlpha.or (asciiTest_beq (by decide))).or (asciiTest_beq (by decide))).or
      ⟨false, fun c hc => by simp only [beq_eq_false_of_le (x := '/') (by decide) hc, Bool.false_and]⟩
  simp only [opensMarkup?, Input.byte?_cons h (by decide), Option.bind_eq_bind, Option.bind_some, Option.pure_def, hguard,
    Input.any_byte? htest hnext, Option.some.injEq]
  cases u with
  | nil => rfl
  | cons c u =>
    by_cases hslash : c = '/'
    · subst hslash
      rw [Input.any_byte? (asciiTest_isAlpha.or (asciiTest_beq (by decide))) (Input.from?_succ hnext (by decide))]
      cases u <;> rfl
    · rw [Span.opensMarkup_of_ne_slash hslash]
      simp [hslash]

/-- **A run of text ends as it is read**, though its search begins inside its first character. -/
theorem runStop?_eq {c : Char} (h : s.from? k = some (c :: t)) :
    runStop? s (k + 1) = some (k + byteLength (c :: (cutAt Span.opensMarkup t).1)) := by
  have hnext : s.from? (k + byteLength [c]) = some t := Input.from?_append (u := [c]) h
  have hsize := Input.add_byteLength (Input.from?_cutAt Span.opensMarkup hnext)
  have hstop : k + byteLength (c :: (cutAt Span.opensMarkup t).1) =
      k + byteLength [c] + byteLength (cutAt Span.opensMarkup t).1 := by
    rw [Nat.add_assoc, ← byteLength_append, List.singleton_append]
  have hpos := byteLength_pos (List.cons_ne_nil c [])
  rw [hstop]
  generalize hj : k + byteLength [c] + byteLength (cutAt Span.opensMarkup t).1 = j at hsize ⊢
  have hpass : ∀ i, k < i ∧ i ≤ j → Pass.Sound id s.size (fun i => k < i ∧ i ≤ j) (· = j) i (runPass? s i) := by
    rintro i ⟨hki, hij⟩
    rw [runPass?, Nat.min_eq_left (by omega)]
    rcases Input.seek?_cutAt (q := Span.opensMarkup) (fun _ => exists_of_opensMarkup) hnext (hj ▸ hij) with
      ⟨hseek, hnil⟩ | ⟨l, u, hseek, hil, hu, ⟨hlj, -, hend⟩ | ⟨hlj, hinside⟩⟩
    · rw [hnil, byteLength] at hsize
      rw [hseek]
      exact .done (by omega)
    · simp only [hseek, opensMarkup?_eq hu, hend, Option.bind_eq_bind, Option.bind_some, Option.pure_def, if_true]
      exact .done (by omega)
    · obtain ⟨w, hw, hlw⟩ := Input.exists_append_of_le h hu (by omega)
      have hle : k + byteLength [c] ≤ l := by
        cases w with
        | nil => rw [byteLength] at hlw; omega
        | cons d w =>
          obtain rfl := (List.cons.inj hw).1
          simp only [byteLength] at hlw ⊢
          omega
      simp only [hseek, opensMarkup?_eq hu, hinside hle, Option.bind_eq_bind, Option.bind_some, Option.pure_def]
      exact .again (by simp only [id]; omega) (by simp only [id]; omega) (by omega)
  obtain ⟨_, hloop, rfl⟩ := exists_loop? hpass (s := k + 1) (by omega)
  exact hloop

end Scanner

/-! ## The end of raw text -/

namespace ClosingTag

variable {name : Text}

theorem exists_of_afterEndTag? (hname : ∀ c ∈ name, c.toNat < 128) {v rest : Text}
    (h : Span.afterEndTag? name v = some rest) :
    ∃ u, v = '<' :: u ∧ ('<' :: '/' :: name).length + byteLength rest < byteLength v := by
  obtain ⟨spelled, blanks, hsp, -, rfl⟩ := Span.afterEndTag?_eq_some_iff.1 h
  obtain ⟨w, hw, hlength⟩ := Text.exists_of_afterFolded? (r := []) hname
    (afterFolded?_eq_some_iff.2 ⟨spelled, hsp, (List.append_nil _).symm⟩)
  rw [List.append_nil] at hw
  refine ⟨_, rfl, ?_⟩
  have hlt := ('<' : Char).utf8Size_pos
  have hslash := ('/' : Char).utf8Size_pos
  have hgt := ('>' : Char).utf8Size_pos
  simp only [List.cons_append, byteLength, byteLength_append, List.length_cons, hw, hlength]
  omega

theorem stop?_eq (hname : ∀ c ∈ name, c.toNat < 128) {u : Text} (h : s.from? k = some ('<' :: u))
    (hk : k + ('<' :: '/' :: name).length ≤ s.size) :
    (Span.afterEndTag? name ('<' :: u) = none ∧ stop? s ('<' :: '/' :: name) k = some none) ∨
      ∃ rest stop, Span.afterEndTag? name ('<' :: u) = some rest ∧
        stop? s ('<' :: '/' :: name) k = some (some stop) ∧ s.from? stop = some rest := by
  have hclosing : ∀ c ∈ '<' :: '/' :: name, c.toNat < 128 :=
    List.forall_mem_cons.2 ⟨by decide, List.forall_mem_cons.2 ⟨by decide, hname⟩⟩
  have hnext := Input.from?_succ h (by decide)
  have hsize := Input.add_byteLength hnext
  simp only [List.length_cons] at hk
  obtain ⟨c, u, rfl⟩ : ∃ c v, u = c :: v := List.exists_cons_of_ne_nil fun hu => by
    rw [hu, byteLength] at hsize
    omega
  obtain ⟨d, hd, hof⟩ := Input.exists_byte? hnext
  have hslash : d = '/' ↔ c = '/' := hof.eq_iff (by decide)
  simp only [stop?, hd, beq_iff_eq, hslash, Input.startsFolded?_eq hclosing h, Option.bind_eq_bind, Option.bind_some,
    Option.pure_def]
  by_cases hc : c = '/'
  · subst hc
    have hfolded : afterFolded? ('<' :: '/' :: name) ('<' :: '/' :: u) = afterFolded? name u := rfl
    rw [if_pos rfl, hfolded, Span.afterEndTag?]
    cases hr : afterFolded? name u with
    | none => exact .inl ⟨rfl, rfl⟩
    | some r =>
      obtain ⟨w, hw, hlength⟩ := Text.exists_of_afterFolded? hclosing (hfolded.trans hr)
      have hbehind := Input.from?_append (hw ▸ h)
      rw [hlength] at hbehind
      obtain ⟨j, hskip, -, -, hblanks⟩ := Input.exists_skip? asciiTest_isBlank hbehind
      rw [← skipBlanks] at hblanks
      simp only [Option.isSome_some, if_true, hskip, Option.bind_some, Option.map_some,
        Input.isAt?_eq (asciiTest_beq (x := '>') (by decide)) hblanks]
      cases hv : skipBlanks r with
      | nil => exact .inl ⟨rfl, rfl⟩
      | cons e rest =>
        rw [hv] at hblanks
        by_cases he : e = '>'
        · subst he
          exact .inr ⟨rest, j + 1, rfl, rfl, Input.from?_succ hblanks (by decide)⟩
        · refine .inl ⟨?_, by simp [he]⟩
          split
          · rename_i hcons
            exact absurd (List.cons.inj (Option.some.inj hcons)).1 he
          · rfl
  · rw [if_neg hc, Span.afterEndTag?]
    · exact .inl ⟨rfl, rfl⟩
    · intro u' hcons
      exact hc (List.cons.inj (List.cons.inj hcons).2).1

/-- `r` says where a text is cut at an end tag of `name`, and where that end tag ends. -/
def Finds (s : Input) (name : Text) (k : Nat) (t : Text) (r : Option (Nat × Nat)) : Prop :=
  let cut := cutAt (fun v => (Span.afterEndTag? name v).isSome) t
  (r = none ∧ cut.2 = []) ∨
    ∃ stop rest, r = some (k + byteLength cut.1, stop) ∧ Span.afterEndTag? name cut.2 = some rest ∧
      s.from? stop = some rest

/-- **The end tag of raw text is found where it is read**, or there is none. -/
theorem exists_scan? (hname : ∀ c ∈ name, c.toNat < 128) (hne : name ≠ []) (h : s.from? k = some t) :
    ∃ r, scan? s ('<' :: '/' :: name) k = some r ∧ Finds s name k t r := by
  have hclosing : ∀ c ∈ '<' :: '/' :: name, c.toNat < 128 :=
    List.forall_mem_cons.2 ⟨by decide, List.forall_mem_cons.2 ⟨by decide, hname⟩⟩
  have hlong : 3 ≤ ('<' :: '/' :: name).length := Nat.succ_le_succ (Nat.succ_le_succ (List.length_pos_iff.2 hne))
  let q : Text → Bool := fun v => (Span.afterEndTag? name v).isSome
  have hq : ∀ v, q v = true → ∃ u, v = '<' :: u ∧ ('<' :: '/' :: name).length < byteLength v := fun v hv => by
    obtain ⟨rest, hrest⟩ := Option.isSome_iff_exists.1 hv
    obtain ⟨u, hu, hlt⟩ := exists_of_afterEndTag? hname hrest
    exact ⟨u, hu, by omega⟩
  have hcut := Input.from?_cutAt q h
  have hsize := Input.add_byteLength hcut
  generalize hj : k + byteLength (cutAt q t).1 = j at hcut hsize
  -- where no end tag can begin any more there is none
  have hshort : ∀ i, i ≤ j → s.size < i + ('<' :: '/' :: name).length → (cutAt q t).2 = [] := fun i hi hlt => by
    rcases cutAt_snd q t with hnil | hend
    · exact hnil
    · obtain ⟨-, -, hlength⟩ := hq _ hend
      omega
  have hpass : ∀ i, k ≤ i ∧ i ≤ j →
      Pass.Sound id s.size (fun i => k ≤ i ∧ i ≤ j) (Finds s name k t) i (pass? s ('<' :: '/' :: name) i) := by
    rintro i ⟨hki, hij⟩
    rw [pass?]
    split
    · rename_i hroom
      rcases Input.seek?_cutAt (q := q) (fun v hv => (hq v hv).imp fun _ => And.left) h (hj ▸ hij) with
        ⟨hseek, hnil⟩ | ⟨l, u, hseek, hil, hu, hl⟩
      · rw [hseek]
        exact .done (.inl ⟨rfl, hnil⟩)
      · have hlj : l ≤ j := by omega
        rw [hseek]
        change Pass.Sound _ _ _ _ _ (if s.size < l + _ then _ else _)
        split
        · exact .done (.inl ⟨rfl, hshort l hlj ‹_›⟩)
        · rcases stop?_eq hname hu (by omega) with ⟨hnone, hstop⟩ | ⟨rest, stop, hrest, hstop, hfrom⟩
          · rw [hstop]
            rcases hl with ⟨-, -, hend⟩ | ⟨hlt, -⟩
            · simp only [q, hnone, Option.isSome_none] at hend
              cases hend
            · exact .again (by simp only [id]; omega) (by simp only [id]; omega) (by omega)
          · rw [hstop]
            rcases hl with ⟨hlj, hu', -⟩ | ⟨-, hinside⟩
            · refine .done (.inr ⟨stop, rest, ?_, hu' ▸ hrest, hfrom⟩)
              rw [hlj]
            · have hend := hinside (by omega)
              simp only [q, hrest, Option.isSome_some] at hend
              cases hend
    · exact .done (.inl ⟨rfl, hshort i hij (by omega)⟩)
  rw [scan?, guard, if_pos ⟨rfl, hlong, by simpa using hclosing⟩]
  exact exists_loop? hpass ⟨Nat.le_refl k, by omega⟩

end ClosingTag

/-! ## Tokens with their names again -/

theorem Reference.decode_ne_nil (c : Char) (t : Text) : decode (c :: t) ≠ [] := by
  rw [decode]
  split
  · split <;> exact List.cons_ne_nil _ _
  · exact List.cons_ne_nil _ _

namespace NameIndex

/-- The token with its names again, if the index has their numbers. -/
def token? (t : NameIndex) (tok : Token UInt32) : Option (Token Text) :=
  TokenStream.token? t.table (tok.map UInt32.toNat)

theorem token?_endTag (t : NameIndex) (i : UInt32) : t.token? (.endTag i) = (t.get? i).map .endTag := by
  rw [get?_eq_table]
  rfl

theorem token?_startTag (t : NameIndex) (i : UInt32) (as : List (Attribute UInt32)) (selfClosing : Bool) :
    t.token? (.startTag i as selfClosing) =
      (t.get? i).bind fun name => (as.mapM t.attribute?).map (.startTag name · selfClosing) := by
  have has : (as.map fun a => (⟨a.name.toNat, a.value⟩ : Attribute Nat)).mapM (TokenStream.attribute? t.table) =
      as.mapM t.attribute? := by
    rw [List.mapM_map]
    refine congrArg (as.mapM ·) (funext fun a => ?_)
    rw [attribute?, get?_eq_table]
    rfl
  rw [get?_eq_table, ← has]
  simp only [token?, Token.map, TokenStream.token?, Option.bind_eq_bind, Option.pure_def, Option.map_eq_bind]
  rfl

theorem token?_mono {t u : NameIndex} (h : t.table.names <+: u.table.names) (tok : Token UInt32) (tok' : Token Text)
    (htok : t.token? tok = some tok') : u.token? tok = some tok' := by
  cases tok with
  | doctype | comment | text => exact htok
  | endTag i =>
    rw [token?_endTag] at htok ⊢
    obtain ⟨name, hname, rfl⟩ := Option.map_eq_some_iff.1 htok
    rw [get?_mono h hname, Option.map_some]
  | startTag i as selfClosing =>
    rw [token?_startTag] at htok ⊢
    obtain ⟨name, hname, htok⟩ := Option.bind_eq_some_iff.1 htok
    obtain ⟨as', has, rfl⟩ := Option.map_eq_some_iff.1 htok
    rw [get?_mono h hname, Option.bind_some, mapM_of_imp (attribute?_mono h) has, Option.map_some]

end NameIndex

namespace Scanner

variable {c c' c'' : Scanner} {ts us : List (Token Text)}

/-- The tokens with their names again, if the index has their numbers. -/
def named? (c : Scanner) : Option (List (Token Text)) := c.tokens.toList.mapM c.names.token?

theorem toTokens?_stream (c : Scanner) : c.stream.toTokens? = c.named? := by
  rw [TokenStream.toTokens?, stream, List.mapM_map]
  rfl

/-- `c'` has the tokens of `c` and the tokens `ts`, whose numbers are in its index.  Which names they stand for is known
up to as many names as there are words. -/
structure Reads (c c' : Scanner) (ts : List (Token Text)) : Prop where
  agrees : c'.names.Agrees
  grows : c.names.table.names <+: c'.names.table.names
  named : ∀ us, c.named? = some us → ∃ us', c'.named? = some us' ∧ (c'.names.size ≤ 2 ^ 32 → us' = us ++ ts)

theorem Reads.refl (h : c.names.Agrees) : Reads c c [] :=
  ⟨h, List.prefix_refl _, fun us hus => ⟨us, hus, fun _ => (List.append_nil us).symm⟩⟩

theorem Reads.trans (h : Reads c c' ts) (h' : Reads c' c'' us) : Reads c c'' (ts ++ us) := by
  refine ⟨h'.agrees, h.grows.trans h'.grows, fun vs hvs => ?_⟩
  obtain ⟨vs', hvs', heq⟩ := h.named vs hvs
  obtain ⟨vs'', hvs'', heq'⟩ := h'.named vs' hvs'
  refine ⟨vs'', hvs'', fun hs => ?_⟩
  rw [heq' hs, heq (Nat.le_trans (NameIndex.size_mono h'.grows) hs), List.append_assoc]

theorem Reads.congr (h : Reads c c' ts) (heq : c'.names.size ≤ 2 ^ 32 → ts = us) : Reads c c' us := by
  refine ⟨h.agrees, h.grows, fun vs hvs => ?_⟩
  obtain ⟨vs', hvs', hvseq⟩ := h.named vs hvs
  exact ⟨vs', hvs', fun hs => heq hs ▸ hvseq hs⟩

theorem Reads.goTo (h : Reads c c' ts) (j : Nat) : Reads c (c'.goTo j) ts := ⟨h.agrees, h.grows, h.named⟩

theorem reads_push {names : NameIndex} {tok : Token UInt32} {tok' tok'' : Token Text} (hn : names.Agrees)
    (hgrows : c.names.table.names <+: names.table.names) (htok : names.token? tok = some tok')
    (heq : names.size ≤ 2 ^ 32 → tok' = tok'') (j : Nat) : Reads c ⟨j, c.tokens.push tok, names⟩ [tok''] := by
  refine ⟨hn, hgrows, fun us hus => ⟨us ++ [tok'], ?_, fun hs => by rw [heq hs]⟩⟩
  rw [named?, Array.toList_push, List.mapM_append, mapM_of_imp (NameIndex.token?_mono hgrows) hus]
  simp [htok]

theorem reads_emit {tok : Token UInt32} {tok' : Token Text} (hn : c.names.Agrees)
    (htok : c.names.token? tok = some tok') : Reads c (c.emit tok) [tok'] :=
  reads_push hn (List.prefix_refl _) htok (fun _ => rfl) _

theorem reads_emitText (hn : c.names.Agrees) (t : Text) :
    Reads c (c.emitText t) (if t.isEmpty then [] else [.text t]) := by
  rw [emitText]
  split
  · exact .refl hn
  · exact reads_emit hn rfl

/-- A pass takes the span `sp`: it adds its tokens, and ends where the span ends or, if that is the end of the text, ends
the loop. -/
inductive Advances (s : Input) (c : Scanner) (sp : Span) : Option (Pass Scanner Scanner) → Prop where
  | again {c' : Scanner} {t : Text} (hreads : Reads c c' sp.tokens) (hlt : c.place < c'.place)
    (h : s.from? c'.place = some t) (hrest : c'.names.size ≤ 2 ^ 32 → t = sp.rest) : Advances s c sp (some (.again c'))
  | done {c' : Scanner} (hreads : Reads c c' sp.tokens) (hrest : c'.names.size ≤ 2 ^ 32 → sp.rest = []) :
    Advances s c sp (some (.done c'))

theorem Advances.after {sp sp' : Span} {p : Option (Pass Scanner Scanner)} (h : Reads c c' ts) (hle : c.place ≤ c'.place)
    (hp : Advances s c' sp p)
    (heq : c'.names.size ≤ 2 ^ 32 → ts ++ sp.tokens = sp'.tokens ∧ sp.rest = sp'.rest) : Advances s c sp' p := by
  have hbound : ∀ {c'' : Scanner}, Reads c' c'' sp.tokens → c''.names.size ≤ 2 ^ 32 → c'.names.size ≤ 2 ^ 32 :=
    fun hreads hs => Nat.le_trans (NameIndex.size_mono hreads.grows) hs
  cases hp with
  | again hreads hlt hfrom hrest =>
    exact .again ((h.trans hreads).congr fun hs => (heq (hbound hreads hs)).1) (Nat.lt_of_le_of_lt hle hlt) hfrom
      fun hs => (hrest hs).trans (heq (hbound hreads hs)).2
  | done hreads hrest =>
    exact .done ((h.trans hreads).congr fun hs => (heq (hbound hreads hs)).1)
      fun hs => (heq (hbound hreads hs)).2 ▸ hrest hs

theorem advances_run? (hn : c.names.Agrees) {x : Char} (h : s.from? c.place = some (x :: t)) :
    Advances s c (Span.ofRun (x :: t)) (run? s c) := by
  have hsplit : s.from? c.place = some (x :: (cutAt Span.opensMarkup t).1 ++ (cutAt Span.opensMarkup t).2) := by
    rw [List.cons_append, cutAt_append, h]
  simp only [run?, runStop?_eq h, Input.slice?_append hsplit, Reference.decode?_eq, Option.bind_eq_bind, Option.bind_some,
    Option.pure_def]
  have hpos := byteLength_pos (List.cons_ne_nil x (cutAt Span.opensMarkup t).1)
  refine .again ?_ (Nat.lt_add_of_pos_right hpos) (Input.from?_append hsplit) fun _ => rfl
  have htext := reads_emitText hn (Reference.decode (x :: (cutAt Span.opensMarkup t).1))
  rw [if_neg (by simpa using Reference.decode_ne_nil x _)] at htext
  exact htext.goTo _

theorem advances_comment? (hn : c.names.Agrees) (h : s.from? c.place = some ('<' :: '!' :: '-' :: '-' :: t)) :
    Advances s c (Span.ofComment t) (comment? s c) := by
  have hstart : s.from? (c.place + 4) = some t := Input.from?_append (u := ['<', '!', '-', '-']) h
  have hcut := Input.from?_cutAt (['-', '-', '>'].isPrefixOf ·) hstart
  simp only [comment?, hstart, findByte?_eq_cutAt (p := ['-', '-', '>']) (by decide), Option.bind_eq_bind,
    Option.bind_some, Option.pure_def]
  rcases cutAt_snd (['-', '-', '>'].isPrefixOf ·) t with hnil | hend
  · have hall := cutAt_append (['-', '-', '>'].isPrefixOf ·) t
    rw [hnil, List.append_nil] at hall
    rw [hnil]
    refine .done ?_ fun _ => by rw [Span.ofComment, hnil]; rfl
    rw [Span.ofComment, hall]
    exact reads_emit hn rfl
  · obtain ⟨r, hr⟩ := List.isPrefixOf_iff_prefix.1 hend
    rw [if_neg (by simp [← hr])]
    simp only [Input.slice?_cutAt (['-', '-', '>'].isPrefixOf ·) hstart, Option.bind_some]
    rw [← hr] at hcut
    refine .again ((reads_emit hn rfl).goTo _) (by simp only [goTo]; omega)
      (Input.from?_append (u := ['-', '-', '>']) hcut) fun _ => ?_
    rw [Span.ofComment, ← hr]
    rfl

theorem advances_doctype? (hn : c.names.Agrees) (h : s.from? c.place = some ('<' :: '!' :: t)) :
    Advances s c (Span.ofDoctype t) (doctype? s c) := by
  have hstart : s.from? (c.place + 2) = some t := Input.from?_append (u := ['<', '!']) h
  have hslice : Text.slice? 0 (byteLength (t.takeWhile (· != '>'))) t = some (t.takeWhile (· != '>')) := by
    have hall := Text.slice?_append [] (t.takeWhile (· != '>')) (t.dropWhile (· != '>'))
    rwa [List.takeWhile_append_dropWhile, List.nil_append, byteLength, Nat.zero_add] at hall
  simp only [doctype?, hstart, findByte?_eq_cutAt (p := ['>']) (by decide), cutAt_singleton, Option.bind_eq_bind,
    Option.bind_some, Option.pure_def]
  rw [Span.ofDoctype_eq]
  obtain ⟨v, -, hv, ⟨-, hnil⟩ | ⟨r, -, hr⟩⟩ := upTo_cases '>' t
  · rw [hnil]
    exact .done (.refl hn) fun _ => rfl
  · have hbehind : s.from? (c.place + 2 + byteLength (t.takeWhile (· != '>'))) = some ('>' :: r) :=
      hr ▸ Input.from?_append (by rw [List.takeWhile_append_dropWhile, hstart])
    simp only [hr, hslice, List.isEmpty_cons, Bool.false_eq_true, if_false, Option.bind_some]
    exact .again ((reads_emit hn rfl).goTo _) (by simp only [goTo]; omega) (Input.from?_succ hbehind (by decide))
      fun _ => rfl

theorem advances_bogus? (hn : c.names.Agrees) {mark : Char} {v : Text}
    (hmark : s.byte? (c.place + 1) = some mark)
    (h : s.from? (c.place + if mark == '!' then 2 else 1) = some v) : Advances s c (Span.ofBogus v) (bogus? s c) := by
  have hsize := Input.add_byteLength h
  have hpos : 0 < if mark == '!' then 2 else 1 := by split <;> decide
  simp only [bogus?, hmark, Option.bind_eq_bind, Option.bind_some, Option.pure_def]
  generalize (if mark == '!' then 2 else 1) = n at h hsize hpos ⊢
  obtain ⟨w, hw, hv, ⟨rfl, hnil⟩ | ⟨r, rfl, hr⟩⟩ := upTo_cases '>' v
  · have hall : s.from? (c.place + n) = some (v ++ []) := by rw [List.append_nil, h]
    have hseek : s.seek? '>' (c.place + n) s.size = some none :=
      Input.seek?_of_notMem (by decide) hall hw (by omega) (by omega)
    have hslice := Input.slice?_append hall
    have hend := Input.from?_append hall
    rw [hsize] at hslice hend
    simp only [hseek, Option.getD_none, Option.bind_some, hslice, Nat.min_eq_right (Nat.le_succ s.size)]
    rw [Span.ofBogus, hv, hnil]
    exact .again ((reads_emit hn rfl).goTo _) (by simp only [goTo]; omega) hend fun _ => rfl
  · have hbehind := Input.from?_append h
    have hnext := Input.from?_succ hbehind (by decide)
    have hlt := Input.add_byteLength hnext
    have hseek := Input.seek?_append_cons (by decide) h hw (by omega) (Nat.le_refl s.size)
    have hmin : min (c.place + n + byteLength w + 1) s.size = c.place + n + byteLength w + 1 := by omega
    simp only [hseek, Option.getD_some, Option.bind_some, Input.slice?_append h, hmin]
    rw [Span.ofBogus, hv, hr]
    exact .again ((reads_emit hn rfl).goTo _) (by simp only [goTo]; omega) hnext fun _ => rfl

/-- The names before a `>` are passed with what stands before it. -/
theorem dropWhile_isNameChar (t : Text) :
    (t.dropWhile Element.isNameChar).dropWhile (· != '>') = t.dropWhile (· != '>') := by
  induction t with
  | nil => rfl
  | cons c t ih =>
    cases hc : Element.isNameChar c with
    | true =>
      have hne : c ≠ '>' := fun he => by
        rw [he] at hc
        cases hc
      rw [List.dropWhile_cons_of_pos hc, List.dropWhile_cons_of_pos (by simpa using hne), ih]
    | false => rw [List.dropWhile_cons_of_neg (by simp [hc])]

theorem exists_emitEndTag? (hn : c.names.Agrees) {name : Text} (h : s.slice? k (k + byteLength name) = some name) :
    ∃ c', emitEndTag? s c k (k + byteLength name) = some c' ∧
      Reads c c' (if name.isEmpty then [] else [.endTag (Text.fold name)]) := by
  rw [emitEndTag?]
  cases name with
  | nil => exact ⟨c, if_neg (Nat.lt_irrefl _), .refl hn⟩
  | cons x name =>
    obtain ⟨found, hfound, heq⟩ := hn.exists_get?_intern (x :: name)
    have htok : (c.names.intern (x :: name)).2.token? (.endTag (c.names.intern (x :: name)).1) =
        some (.endTag found) := by
      rw [NameIndex.token?_endTag, hfound, Option.map_some]
    rw [if_pos (Nat.lt_add_of_pos_right (byteLength_pos (List.cons_ne_nil x name))), h]
    exact ⟨_, rfl, reads_push (hn.intern _).2.2 (hn.prefix_intern _) htok (fun hs => by rw [heq hs]) _⟩

theorem advances_endTag? (hn : c.names.Agrees) (h : s.from? c.place = some ('<' :: '/' :: t)) :
    Advances s c (Span.ofEndTag t) (endTag? s c) := by
  have hstart : s.from? (c.place + 2) = some t := Input.from?_append (u := ['<', '/']) h
  obtain ⟨j, hskip, rfl, hslice, hname⟩ := Input.exists_skip? asciiTest_isNameChar hstart
  obtain ⟨l, hskip', hl, -, hbehind⟩ := Input.exists_skip? (asciiTest_bne (x := '>') (by decide)) hname
  rw [dropWhile_isNameChar] at hbehind
  have hsize := Input.add_byteLength hbehind
  obtain ⟨c', hemit, hreads⟩ := exists_emitEndTag? hn hslice
  simp only [endTag?, hskip, hemit, hskip', Option.bind_eq_bind, Option.bind_some, Option.pure_def]
  obtain ⟨v, -, -, ⟨-, hnil⟩ | ⟨r, -, hr⟩⟩ := upTo_cases '>' t
  · rw [hnil] at hbehind hsize
    rw [byteLength] at hsize
    rw [if_neg (by omega)]
    refine .again (hreads.goTo _) (by simp only [goTo]; omega) hbehind fun _ => ?_
    rw [Span.ofEndTag, hnil]
    rfl
  · rw [hr] at hbehind hsize
    have hpos := byteLength_pos (List.cons_ne_nil '>' r)
    rw [if_pos (by omega)]
    refine .again (hreads.goTo _) (by simp only [goTo]; omega) (Input.from?_succ hbehind (by decide)) fun _ => ?_
    rw [Span.ofEndTag, hr]
    rfl

/-! ### Start tags and raw text -/

theorem lt_of_isNameChar {x : Char} (hx : Element.isNameChar x = true) : x.toNat < 128 :=
  lt_of_test_ne (fun _ => isNameChar_of_le) (by simp [hx])

theorem reads_rawText (hn : c.names.Agrees) {i : UInt32} {name : Text} (hi : c.names.get? i = some name) (t : Text) :
    Reads c ((c.emitText t).emit (.endTag i)) (if t.isEmpty then [.endTag name] else [.text t, .endTag name]) := by
  have hnames : (c.emitText t).names = c.names := by
    rw [emitText]
    split <;> rfl
  have htok : (c.emitText t).names.token? (.endTag i) = some (.endTag name) := by
    rw [hnames, NameIndex.token?_endTag, hi, Option.map_some]
  refine ((reads_emitText hn t).trans (reads_emit (hnames ▸ hn) htok)).congr fun _ => ?_
  split <;> rfl

theorem advances_rawText? (hn : c.names.Agrees) {i : UInt32} {name : Text} (hi : c.names.get? i = some name)
    (hraw : Element.isRawText name = true) (h : s.from? c.place = some t) :
    Advances s c (Span.ofRawText name t) (rawText? s i name c) := by
  have hspelling := Element.isTagSpelling_of_isRawText hraw
  have hname : ∀ x ∈ name, x.toNat < 128 := fun x hx =>
    lt_of_isNameChar (Element.isNameChar_of_isTagSpelling hspelling x hx)
  have hne : name ≠ [] := by
    rintro rfl
    cases hspelling
  have hcut := Input.from?_cutAt (fun v => (Span.afterEndTag? name v).isSome) h
  have hslice := Input.slice?_cutAt (fun v => (Span.afterEndTag? name v).isSome) h
  have hall := cutAt_append (fun v => (Span.afterEndTag? name v).isSome) t
  obtain ⟨r, hscan, ⟨rfl, hnil⟩ | ⟨stop, rest, rfl, hrest, hfrom⟩⟩ := ClosingTag.exists_scan? hname hne h
  · rw [hnil, List.append_nil] at hall
    simp only [rawText?, hscan, h, Option.bind_eq_bind, Option.bind_some, Option.pure_def]
    rw [Span.ofRawText, hnil, hall]
    exact .done (reads_rawText hn hi t) fun _ => rfl
  · obtain ⟨-, -, hlength⟩ := ClosingTag.exists_of_afterEndTag? hname hrest
    have hsize := Input.add_byteLength hcut
    have hend := Input.add_byteLength hfrom
    simp only [rawText?, hscan, hslice, Option.bind_eq_bind, Option.bind_some, Option.pure_def]
    rw [Span.ofRawText, hrest]
    exact .again ((reads_rawText hn hi _).goTo _) (by simp only [goTo]; omega) hfrom fun _ => rfl

theorem advances_startTag? (hn : c.names.Agrees) {x : Char} (hx : x.isAlpha = true)
    (h : s.from? c.place = some ('<' :: x :: t)) : Advances s c (Span.ofStartTag (x :: t)) (startTag? s c) := by
  have hstart := Input.from?_succ h (by decide)
  obtain ⟨j, hskip, rfl, hslice, hname⟩ := Input.exists_skip? asciiTest_isNameChar hstart
  have hne : (x :: t).takeWhile Element.isNameChar ≠ [] := by
    simp [List.takeWhile_cons_of_pos (Element.isNameChar_of_isAlpha hx)]
  simp only [Span.ofStartTag]
  generalize (x :: t).takeWhile Element.isNameChar = name at hskip hslice hname hne ⊢
  obtain ⟨found, hfound, hfoundEq⟩ := hn.exists_get?_intern name
  obtain ⟨g, as, hscan, hforward, hrest, hslashed, hagrees, hgrows, has, hasEq⟩ :=
    TagScanner.exists_scan? (hn.intern name).2.2 hname
  have hget := NameIndex.get?_mono hgrows hfound
  have hguard : (guard (c.place + 1 < c.place + 1 + byteLength name) : Option Unit) = some () :=
    if_pos (Nat.lt_add_of_pos_right (byteLength_pos hne))
  simp only [startTag?, hskip, hguard, hslice, hscan, hget, hslashed, Option.bind_eq_bind, Option.bind_some,
    Option.pure_def]
  generalize Tag.read ((x :: t).dropWhile Element.isNameChar) = tag at hrest hslashed hasEq ⊢
  have hreal : g.names.size ≤ 2 ^ 32 → found = Text.fold name ∧ as = tag.attributes := fun hs =>
    ⟨hfoundEq (Nat.le_trans (NameIndex.size_mono hgrows) hs), hasEq hs⟩
  have htok : g.names.token? (.startTag (c.names.intern name).1 g.attributes (tag.slashed || Element.isVoid found)) =
      some (.startTag found as (tag.slashed || Element.isVoid found)) := by
    rw [NameIndex.token?_startTag, hget, Option.bind_some, ← TagScanner.named?, has, Option.map_some]
  have hreads := reads_push hagrees ((hn.prefix_intern name).trans hgrows) htok (fun _ => rfl) g.place
  have hlt : c.place < g.place := by omega
  by_cases hraw : (!(tag.slashed || Element.isVoid found) && Element.isRawText found) = true
  · rw [if_pos hraw]
    refine Advances.after hreads (Nat.le_of_lt hlt)
      (advances_rawText? hagrees hget (Bool.and_eq_true_iff.1 hraw).2 hrest) fun hs => ?_
    obtain ⟨rfl, rfl⟩ := hreal hs
    rw [if_pos hraw]
    exact ⟨rfl, rfl⟩
  · rw [if_neg hraw]
    refine .again (hreads.congr fun hs => ?_) hlt hrest fun hs => ?_ <;>
      obtain ⟨rfl, rfl⟩ := hreal hs <;> rw [if_neg hraw]

/-! ### Any span -/

theorem advances_declaration (hn : c.names.Agrees) (h : s.from? c.place = some ('<' :: '!' :: t)) :
    Advances s c (Span.ofDeclaration t) (markup? s c) := by
  have hascii : ∀ x ∈ ['<', '!', 'd', 'o', 'c', 't', 'y', 'p', 'e'], x.toNat < 128 := by simp
  have hfolded : afterFolded? ['<', '!', 'd', 'o', 'c', 't', 'y', 'p', 'e'] ('<' :: '!' :: t) =
      afterFolded? ['d', 'o', 'c', 't', 'y', 'p', 'e'] t := rfl
  have hprefix : ['<', '!', '-', '-'].isPrefixOf ('<' :: '!' :: t) = ['-', '-'].isPrefixOf t := rfl
  have hnext := Input.from?_succ h (by decide)
  simp only [markup?, h, hprefix, Input.startsFolded?_eq hascii h, hfolded, Input.byte?_cons hnext (by decide),
    Option.bind_eq_bind, Option.bind_some]
  cases hcomment : ['-', '-'].isPrefixOf t with
  | true =>
    obtain ⟨u, rfl⟩ := List.isPrefixOf_iff_prefix.1 hcomment
    exact advances_comment? hn h
  | false =>
    rw [Span.ofDeclaration_of_not_comment hcomment, if_neg Bool.false_ne_true]
    split
    · exact advances_doctype? hn h
    · exact advances_bogus? hn (Input.byte?_cons hnext (by decide)) (Input.from?_append (u := ['<', '!']) h)

theorem advances_markup? (hn : c.names.Agrees) (h : s.from? c.place = some ('<' :: t))
    (ho : Span.opensMarkup ('<' :: t) = true) : Advances s c (Span.ofMarkup t) (markup? s c) := by
  obtain ⟨x, t, rfl⟩ : ∃ x u, t = x :: u := List.exists_cons_of_ne_nil fun ht => by
    rw [ht] at ho
    cases ho
  by_cases hbang : x = '!'
  · subst hbang
    exact advances_declaration hn h
  have hascii : ∀ x ∈ ['<', '!', 'd', 'o', 'c', 't', 'y', 'p', 'e'], x.toNat < 128 := by simp
  have hprefix : ['<', '!', '-', '-'].isPrefixOf ('<' :: x :: t) = false := by
    simp only [List.isPrefixOf, beq_false_of_ne (Ne.symm hbang), Bool.false_and, Bool.and_false]
  have hfolded : afterFolded? ['<', '!', 'd', 'o', 'c', 't', 'y', 'p', 'e'] ('<' :: x :: t) = none := by
    change afterFolded? ['!', 'd', 'o', 'c', 't', 'y', 'p', 'e'] (x :: t) = none
    exact if_neg (by simpa using (toLower_ne rfl hbang).symm)
  have hnext := Input.from?_succ h (by decide)
  simp only [markup?, h, hprefix, Input.startsFolded?_eq hascii h, hfolded, Option.bind_eq_bind, Option.bind_some]
  by_cases hquestion : x = '?'
  · subst hquestion
    have hmark := Input.byte?_cons hnext (by decide)
    simp only [hmark, Option.bind_some]
    exact advances_bogus? hn hmark hnext
  by_cases hslash : x = '/'
  · subst hslash
    simp only [Input.byte?_cons hnext (by decide), Option.bind_some]
    exact advances_endTag? hn h
  have halpha : x.isAlpha = true := by
    rw [Span.opensMarkup_of_ne_slash hslash] at ho
    simpa [hbang, hquestion] using ho
  have hmark := Input.byte?_cons hnext (lt_of_isNameChar (Element.isNameChar_of_isAlpha halpha))
  rw [Span.ofMarkup_of_ne t hbang hquestion hslash]
  simp only [hmark, Option.bind_some, beq_false_of_ne hbang, beq_false_of_ne hquestion, beq_false_of_ne hslash]
  exact advances_startTag? hn halpha h

/-- **Each pass takes the span that is read.** -/
theorem advances_pass? (hn : c.names.Agrees) {x : Char} (h : s.from? c.place = some (x :: t)) :
    Advances s c (Span.read (x :: t)) (pass? s c) := by
  obtain ⟨d, hd, hof⟩ := Input.exists_byte? h
  have hlt : d = '<' ↔ x = '<' := hof.eq_iff (by decide)
  simp only [pass?, if_pos (Input.lt_size_of_byte? hd), hd, beq_iff_eq, hlt, Option.bind_eq_bind, Option.bind_some,
    Option.pure_def]
  rw [Span.read]
  by_cases hx : x = '<'
  · subst hx
    rw [if_pos rfl, opensMarkup?_eq h, Option.bind_some]
    split
    · exact advances_markup? hn h ‹_›
    · exact advances_run? hn h
  · rw [if_neg hx, Span.opensMarkup_of_ne hx]
    exact advances_run? hn h

end Scanner
end SafeMarkup
