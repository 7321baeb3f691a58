import SafeMarkup.Markup.Scanner
import SafeMarkup.Proofs.Inputs
import SafeMarkup.Proofs.Interning
/-!
# References and tags by their bytes

Scanning for references and for the attributes of a tag never fails, and finds what reading finds: a text decodes to what
its references stand for (`Reference.decode?_eq`), and a tag ends and has the attributes as it is read, with the numbers
that their names get one after the other (`TagScanner.exists_scan?`).
-/
namespace SafeMarkup

open Text

variable {s : Input} {k : Nat} {t : Text}

/-! ## References -/

namespace Reference

theorem isBodyChar_of_le {c : Char} (hc : 128 ≤ c.toNat) : isBodyChar c = false := by
  rw [isBodyChar, isAlphanum_of_le hc, beq_eq_false_of_le (by decide) hc]
  rfl

/-- **A reference is found in the few bytes that it may have.** -/
theorem exists_scan? (h : s.from? k = some t) : (read? t = none ∧ scan? s k = some none) ∨
    ∃ c rest behind, read? t = some (c, rest) ∧ scan? s k = some (some (c, behind)) ∧ k < behind ∧
      s.from? behind = some rest := by
  have hsize := Input.add_byteLength h
  have hread : ∀ r, read? t = some r → ∃ body, ofBody? body = some r.1 ∧ t = body ++ ';' :: r.2 ∧
      byteLength body ≤ bodyLimit ∧ s.byte? (k + byteLength body) = some ';' := fun r hr => by
    obtain ⟨body, rfl, hl, hb⟩ := read?_eq_some_iff.1 hr
    refine ⟨body, hb, rfl, ?_, Input.byte?_cons (Input.from?_append h) (by decide)⟩
    rwa [byteLength_of_lt fun c hc => lt_of_test_ne (fun _ => isBodyChar_of_le) (by simp [isBodyChar_of_ofBody? hb c hc])]
  have hstart : k ≤ min s.size (k + (bodyLimit + 1)) := by omega
  rcases Input.seek?_cases (c := ';') hstart (Nat.min_le_left ..) with
    ⟨hseek, hnone⟩ | ⟨j, hseek, hkj, hj, hbyte, hfirst⟩
  · refine .inl ⟨Option.eq_none_iff_forall_not_mem.2 fun r hr => ?_, ?_⟩
    · obtain ⟨body, -, -, hl, hsemicolon⟩ := hread r hr
      have hlt := Input.lt_size_of_byte? hsemicolon
      exact hnone _ (Nat.le_add_right ..) (by omega) hsemicolon
    · simp only [scan?, hseek, Option.bind_eq_bind, Option.bind_some, Option.pure_def]
  · obtain ⟨rest, hrest⟩ := Input.exists_from?_of_byte? hbyte (by decide)
    obtain ⟨body, rfl, rfl⟩ := Input.exists_append_of_le h hrest hkj
    have hscan : scan? s k = some ((ofBody? body).map (·, k + byteLength body + 1)) := by
      simp only [scan?, hseek, Input.slice?_append h, Option.bind_eq_bind, Option.bind_some, Option.pure_def]
    cases hb : ofBody? body with
    | some c =>
      have hl := Nat.le_trans (length_le_byteLength body) (by omega : byteLength body ≤ bodyLimit)
      refine .inr ⟨c, rest, k + byteLength body + 1, read?_eq_some_iff.2 ⟨body, rfl, hl, hb⟩, ?_, by omega,
        Input.from?_succ hrest (by decide)⟩
      rw [hscan, hb, Option.map_some]
    | none =>
      refine .inl ⟨Option.eq_none_iff_forall_not_mem.2 fun r hr => ?_, by rw [hscan, hb, Option.map_none]⟩
      -- a reference would have another body, which ends at an earlier semicolon
      obtain ⟨other, ho, hsplit, -, hsemicolon⟩ := hread r hr
      have hmem : ';' ∉ other := fun hm => absurd (isBodyChar_of_ofBody? ho _ hm) (by decide)
      obtain ⟨more, rfl, -⟩ := exists_append_of_notMem hmem hsplit
      cases more with
      | nil =>
        rw [List.append_nil, ho] at hb
        cases hb
      | cons c more =>
        have hpos := byteLength_pos (List.cons_ne_nil c more)
        exact hfirst _ (Nat.le_add_right ..) (by rw [byteLength_append]; omega) hsemicolon

/-- What has been decoded and what is still to be decoded make up the decoded text. -/
def Decoder.Decodes (s : Input) (d : Decoder) : Prop :=
  ∃ rest, s.from? d.place = some rest ∧ d.out ++ decode rest = decode s.text

theorem Decoder.sound_pass? {s : Input} {d : Decoder} (h : d.Decodes s) :
    Pass.Sound Decoder.place s.size (Decoder.Decodes s) (· = decode s.text) d (d.pass? s) := by
  obtain ⟨rest, hrest, hout⟩ := h
  have hsize := Input.add_byteLength hrest
  obtain ⟨before, hbefore, -, ⟨rfl, -⟩ | ⟨body, rfl, -⟩⟩ := upTo_cases '&' rest
  · have hseek : s.seek? '&' d.place s.size = some none :=
      Input.seek?_of_notMem (t := []) (by decide) (by rw [List.append_nil, hrest]) hbefore (by omega) (by omega)
    have hdecode : decode rest = rest := by simpa [decode_nil] using decode_append_of_notMem hbefore []
    simp only [pass?, hseek, hrest, Option.bind_eq_bind, Option.bind_some, Option.pure_def]
    exact .done (hdecode ▸ hout)
  · have hamp := Input.from?_append hrest
    have hbody := Input.from?_succ hamp (by decide)
    have hlt := Input.add_byteLength hamp
    have hpos := byteLength_pos (List.cons_ne_nil '&' body)
    have hseek := Input.seek?_append_cons (by decide) hrest hbefore (by omega) (Nat.le_refl s.size)
    rw [decode_append_of_notMem hbefore] at hout
    rcases exists_scan? hbody with ⟨hread, hscan⟩ | ⟨c, behind, j, hread, hscan, hj, hbehind⟩
    · simp only [pass?, hseek, Input.slice?_append hrest, hscan, Option.bind_eq_bind, Option.bind_some, Option.pure_def]
      refine .again (by simp only; omega) (by simp only; omega) ⟨body, hbody, ?_⟩
      rw [← hout, decode_of_read?_none hread]
      simp
    · have hle := Input.add_byteLength hbehind
      simp only [pass?, hseek, Input.slice?_append hrest, hscan, Option.bind_eq_bind, Option.bind_some, Option.pure_def]
      refine .again (by simp only; omega) (by simp only; omega) ⟨behind, hbehind, ?_⟩
      rw [← hout, decode_of_read? hread]
      simp

/-- **Bytes are decoded as characters are.** -/
theorem decode?_eq (t : Text) : decode? t = some (decode t) := by
  obtain ⟨out, hloop, rfl⟩ := exists_loop? (fun _ => Decoder.sound_pass?)
    (⟨t, Input.from?_ofText t, rfl⟩ : Decoder.Decodes (.ofText t) ⟨0, []⟩)
  exact hloop

end Reference

/-! ## Values -/

namespace TagScanner

/-- `r` is a value and the place where it ends, `v` the value and the text behind it as they are read. -/
def IsValueAt (s : Input) (k : Nat) (v : Text × Text) (r : Text × Nat) : Prop :=
  r.1 = Reference.decode v.1 ∧ k ≤ r.2 ∧ s.from? r.2 = some v.2

theorem exists_quoted? {q : Char} (hq : q = '"' ∨ q = '\'') (h : s.from? k = some (q :: t)) :
    ∃ r, quoted? s k = some r ∧ IsValueAt s k (t.takeWhile (· != q), (t.dropWhile (· != q)).drop 1) r := by
  have hascii : q.toNat < 128 := by rcases hq with rfl | rfl <;> decide
  have hopened := Input.from?_succ h hascii
  obtain ⟨stop, hskip, hstop, hslice, hbehind⟩ := Input.exists_skip? (asciiTest_bne hascii) hopened
  have hsize := Input.add_byteLength hbehind
  simp only [quoted?, Input.byte?_cons h hascii, hskip, hslice, Reference.decode?_eq, Option.bind_eq_bind,
    Option.bind_some, Option.pure_def]
  refine ⟨_, rfl, rfl, ?_⟩
  obtain ⟨v, -, -, ⟨-, hnil⟩ | ⟨r, -, hr⟩⟩ := upTo_cases q t
  · rw [hnil] at hsize hbehind
    rw [byteLength] at hsize
    rw [if_neg (by omega), hnil]
    exact ⟨by simp only; omega, hbehind⟩
  · rw [hr] at hsize hbehind
    have hpos := byteLength_pos (List.cons_ne_nil q r)
    rw [if_pos (by omega), hr]
    exact ⟨by simp only; omega, Input.from?_succ hbehind hascii⟩

theorem isBareAt?_of_le {i : Nat} {d : Char} (hd : s.byte? i = some d) (hge : 128 ≤ d.toNat) :
    isBareAt? s i = some true := by
  simp only [isBareAt?, if_pos (Input.lt_size_of_byte? hd), hd, Option.bind_eq_bind, Option.bind_some, Option.pure_def]
  rw [isBlank_of_le hge, beq_eq_false_of_le (by decide) hge, beq_eq_false_of_le (by decide) hge]
  rfl

theorem isBareAt?_cons {i : Nat} {c : Char} (h : s.from? i = some (c :: t)) (hc : c.toNat < 128) :
    isBareAt? s i = some !Attribute.endsBareValue (c :: t) := by
  have hbyte := Input.byte?_cons h hc
  simp only [isBareAt?, if_pos (Input.lt_size_of_byte? hbyte), hbyte, Option.bind_eq_bind, Option.bind_some,
    Option.pure_def]
  rw [Input.isAt?_eq (asciiTest_beq (by decide)) (Input.from?_succ h hc), Attribute.endsBareValue]
  cases isBlank c || c == '>'
  · cases c == '/'
    · rfl
    · cases t <;> simp
  · rfl

theorem endsBareValue_of_le {c : Char} (hc : 128 ≤ c.toNat) : Attribute.endsBareValue (c :: t) = false := by
  rw [Attribute.endsBareValue, isBlank_of_le hc, beq_eq_false_of_le (by decide) hc, beq_eq_false_of_le (by decide) hc]
  rfl

theorem exists_bare? (h : s.from? k = some t) :
    ∃ r, bare? s k = some r ∧ IsValueAt s k (cutAt Attribute.endsBareValue t) r := by
  have hslice := Input.slice?_cutAt Attribute.endsBareValue h
  have hcut := Input.from?_cutAt Attribute.endsBareValue h
  have hsize := Input.add_byteLength hcut
  have hstop : advance? s.size (isBareAt? s) k = some (k + byteLength (cutAt Attribute.endsBareValue t).1) := by
    refine advance?_eq (Nat.le_add_right ..) (by omega) (fun i hi hij => ?_) ?_
    · obtain ⟨d, hd⟩ := Input.exists_byte?_of_lt_size (by omega : i < s.size)
      rcases Nat.lt_or_ge d.toNat 128 with hascii | hge
      · obtain ⟨v, hv⟩ := Input.exists_from?_of_byte? hd hascii
        rw [isBareAt?_cons hv hascii, Input.eq_false_of_lt_cutAt h hv hi hij, Bool.not_false]
      · exact isBareAt?_of_le hd hge
    · have hends := cutAt_snd Attribute.endsBareValue t
      cases hr : (cutAt Attribute.endsBareValue t).2 with
      | nil =>
        rw [hr, byteLength] at hsize
        rw [isBareAt?, if_neg (by omega)]
        rfl
      | cons c r =>
        rw [hr] at hcut hends
        have hends := hends.resolve_left (List.cons_ne_nil c r)
        have hascii : c.toNat < 128 := lt_of_test_ne (fun _ => endsBareValue_of_le) (by rw [hends]; simp)
        rw [isBareAt?_cons hcut hascii, hends, Bool.not_true]
  simp only [bare?, hstop, hslice, Reference.decode?_eq, Option.bind_eq_bind, Option.bind_some, Option.pure_def]
  exact ⟨_, rfl, rfl, Nat.le_add_right .., hcut⟩

theorem exists_written? (h : s.from? k = some (skipBlanks t)) :
    ∃ r, written? s k = some r ∧ IsValueAt s k (Attribute.readValue t) r := by
  have hquote := Input.isAt?_eq ((asciiTest_beq (x := '"') (by decide)).or (asciiTest_beq (x := '\'') (by decide))) h
  simp only [written?, hquote, Option.bind_eq_bind, Option.bind_some]
  by_cases hq : ∃ q r, skipBlanks t = q :: r ∧ (q = '"' ∨ q = '\'')
  · obtain ⟨q, r, hr, hq⟩ := hq
    rw [hr] at h ⊢
    rw [Attribute.readValue_quoted hq hr, if_pos (by simpa using hq)]
    exact exists_quoted? hq h
  · have hbare : ∀ c ∈ (skipBlanks t).head?, c ≠ '"' ∧ c ≠ '\'' := fun c hc => by
      obtain ⟨r, hr⟩ := List.head?_eq_some_iff.1 hc
      exact not_or.1 fun hcq => hq ⟨c, r, hr, hcq⟩
    rw [Attribute.readValue_bare hbare, if_neg]
    · exact exists_bare? h
    · simpa [Option.any_eq_true] using hbare

/-- **What stands behind an attribute's name is found as it is read.** -/
theorem exists_value? (h : s.from? k = some (t.dropWhile Element.isAttributeChar)) :
    ∃ stop, value? s k = some ((Attribute.read t).1.value, stop) ∧ k ≤ stop ∧
      s.from? stop = some (Attribute.read t).2 := by
  obtain ⟨i, hskip, hi, -, hbehind⟩ := Input.exists_skip? asciiTest_isBlank h
  have hequals := Input.isAt?_eq (asciiTest_beq (x := '=') (by decide)) hbehind
  rw [← skipBlanks] at hequals hbehind
  simp only [value?, hskip, hequals, Option.bind_eq_bind, Option.bind_some, Option.pure_def]
  by_cases he : ∃ r, skipBlanks (t.dropWhile Element.isAttributeChar) = '=' :: r
  · obtain ⟨r, hr⟩ := he
    rw [hr] at hbehind ⊢
    obtain ⟨j, hblanks, hj, -, hvalue⟩ := Input.exists_skip? asciiTest_isBlank (Input.from?_succ hbehind (by decide))
    obtain ⟨v, hv, hdecode, hle, hfrom⟩ := exists_written? hvalue
    rw [Attribute.read_of_equals hr, if_pos (by simp), hblanks, Option.bind_some, hv, Option.bind_some, hdecode]
    exact ⟨v.2, rfl, by omega, hfrom⟩
  · have hne : (skipBlanks (t.dropWhile Element.isAttributeChar)).head? ≠ some '=' := fun hh =>
      he (List.head?_eq_some_iff.1 hh)
    rw [Attribute.read_of_ne hne, if_neg]
    · exact ⟨i, rfl, by omega, hbehind⟩
    · cases hh : (skipBlanks (t.dropWhile Element.isAttributeChar)).head? with
      | none => simp
      | some c =>
        rw [hh] at hne
        simpa using hne

end TagScanner

/-! ## Attributes with their names again -/

theorem mapM_of_imp {α β : Type} {f g : α → Option β} {xs : List α} {ys : List β}
    (h : ∀ x y, f x = some y → g x = some y) (hxs : xs.mapM f = some ys) : xs.mapM g = some ys :=
  mapM_eq_some_iff.2 ((mapM_eq_some_iff.1 hxs).imp h)

theorem any_eq_of_mapM {α β : Type} {f : α → Option β} {p : α → Bool} {q : β → Bool} {xs : List α} {ys : List β}
    (h : ∀ x y, f x = some y → p x = q y) (hxs : xs.mapM f = some ys) : xs.any p = ys.any q := by
  rw [mapM_eq_some_iff] at hxs
  induction hxs with
  | nil => rfl
  | cons hx _ ih => rw [List.any_cons, List.any_cons, h _ _ hx, ih]

/-- The attribute with its name again, if the index has its number. -/
def NameIndex.attribute? (t : NameIndex) (a : Attribute UInt32) : Option (Attribute Text) :=
  (t.get? a.name).map (⟨·, a.value⟩)

theorem NameIndex.attribute?_mono {t u : NameIndex} (h : t.table.names <+: u.table.names) (a : Attribute UInt32)
    (b : Attribute Text) (ha : t.attribute? a = some b) : u.attribute? a = some b := by
  obtain ⟨name, hname, rfl⟩ := Option.map_eq_some_iff.1 ha
  rw [attribute?, get?_mono h hname, Option.map_some]

namespace TagScanner

/-- The attributes with their names again, if the index has their numbers. -/
def named? (g : TagScanner) : Option (List (Attribute Text)) := g.attributes.mapM g.names.attribute?

theorem exists_named?_add {g : TagScanner} (h : g.names.Agrees) {before : List (Attribute Text)}
    (hg : g.named? = some before) {a : Attribute Text} (hf : fold a.name = a.name) :
    ∃ now, (g.add a.name a.value).named? = some now ∧ ((g.add a.name a.value).names.size ≤ 2 ^ 32 →
      now = if before.any (·.name == a.name) then before else before ++ [a]) := by
  obtain ⟨found, hfound, hname⟩ := h.exists_get?_intern a.name
  have hagrees := (h.intern a.name).2.2
  have hkept := mapM_of_imp (NameIndex.attribute?_mono (h.prefix_intern a.name)) hg
  have hsame : (g.names.intern a.name).2.size ≤ 2 ^ 32 →
      g.attributes.any (·.name == (g.names.intern a.name).1) = before.any (·.name == a.name) := fun hs => by
    rw [hname hs, hf] at hfound
    refine any_eq_of_mapM (fun x b hx => ?_) hkept
    obtain ⟨name, hget, rfl⟩ := Option.map_eq_some_iff.1 hx
    rw [Bool.eq_iff_iff, beq_iff_eq, beq_iff_eq]
    constructor
    · intro he
      rw [he, hfound] at hget
      exact (Option.some.inj hget).symm
    · rintro rfl
      exact hagrees.eq_of_get? hs hget hfound
  simp only [add, named?]
  cases hany : g.attributes.any (·.name == (g.names.intern a.name).1) with
  | true => exact ⟨before, hkept, fun hs => by rw [← hsame hs, hany]; rfl⟩
  | false =>
    refine ⟨before ++ [⟨found, a.value⟩], ?_, fun hs => by rw [← hsame hs, hany, hname hs, hf]; rfl⟩
    rw [if_neg Bool.false_ne_true, List.mapM_append, hkept]
    simp [NameIndex.attribute?, hfound]

/-- The tag with some more attributes. -/
def addAll (g : TagScanner) (as : List (Attribute Text)) : TagScanner := as.foldl (fun g a => g.add a.name a.value) g

theorem agrees_addAll : ∀ (as : List (Attribute Text)) {g : TagScanner}, g.names.Agrees →
    (g.addAll as).names.Agrees ∧ g.names.table.names <+: (g.addAll as).names.table.names
  | [], _, h => ⟨h, List.prefix_refl _⟩
  | a :: as, g, h =>
    have hall := agrees_addAll as (g := g.add a.name a.value) (h.intern a.name).2.2
    ⟨hall.1, (h.prefix_intern a.name).trans hall.2⟩

theorem exists_named?_addAll : ∀ {as : List (Attribute Text)} {g : TagScanner} {before : List (Attribute Text)},
    g.names.Agrees → g.named? = some before → (∀ a ∈ as, fold a.name = a.name) →
    ∃ now, (g.addAll as).named? = some now ∧ ((g.addAll as).names.size ≤ 2 ^ 32 →
      now = before ++ (Attribute.keepFirst as).filter fun a => !before.any (·.name == a.name))
  | [], g, before, h, hg, hf => ⟨before, hg, fun _ => by simp [Attribute.keepFirst]⟩
  | a :: as, g, before, h, hg, hf => by
    obtain ⟨ha, hf⟩ := List.forall_mem_cons.1 hf
    have hagrees : (g.add a.name a.value).names.Agrees := (h.intern a.name).2.2
    obtain ⟨next, hnext, hnextEq⟩ := exists_named?_add h hg ha
    obtain ⟨now, hnow, hnowEq⟩ := exists_named?_addAll hagrees hnext hf
    refine ⟨now, hnow, fun hs => ?_⟩
    rw [hnowEq hs, hnextEq (Nat.le_trans (NameIndex.size_mono (agrees_addAll as hagrees).2) hs),
      Attribute.keepFirst, List.filter_cons, List.filter_filter]
    cases hany : before.any (·.name == a.name) with
    | true =>
      have hcongr : ∀ b ∈ Attribute.keepFirst as, (!before.any (·.name == b.name)) =
          (!before.any (·.name == b.name) && b.name != a.name) := fun b _ => by
        by_cases hb : b.name = a.name
        · rw [hb, hany]
          rfl
        · rw [bne_iff_ne.2 hb, Bool.and_true]
      exact congrArg (before ++ ·) (List.filter_congr hcongr)
    | false =>
      have hcongr : ∀ b ∈ Attribute.keepFirst as, (!(before ++ [a]).any (·.name == b.name)) =
          (!before.any (·.name == b.name) && b.name != a.name) := fun b _ => by
        rw [List.any_append, Bool.not_or, List.any_cons, List.any_nil, Bool.or_false, Bool.beq_comm]
        rfl
      rw [if_neg Bool.false_ne_true, List.filter_congr hcongr, List.append_assoc]
      rfl

/-! ## Tags -/

theorem addAll_goTo (j : Nat) (as : List (Attribute Text)) (g : TagScanner) :
    addAll { g with place := j } as = { g.addAll as with place := j } := by
  induction as generalizing g with
  | nil => rfl
  | cons a as ih => exact ih (g.add a.name a.value)

theorem add_fold (g : TagScanner) (name : Text) (value : Option Text) :
    g.add (Text.fold name) value = g.add name value := by
  have hintern : g.names.intern (Text.fold name) = g.names.intern name := by
    rw [NameIndex.intern_eq, NameIndex.intern_eq, fold_fold]
  rw [add, add, hintern]

/-- `g'` is `g` with all of a tag that begins at its place, and stands behind the tag. -/
structure Scanned (s : Input) (g : TagScanner) (tag : Tag) (g' : TagScanner) : Prop where
  attributes : g'.attributes = (g.addAll tag.attributes).attributes
  names : g'.names = (g.addAll tag.attributes).names
  slashed : g'.slashed = tag.slashed
  behind : s.from? g'.place = some tag.rest
  forward : g.place ≤ g'.place

/-- `g'` is `g` with all of the tag that begins at its place. -/
def Ends (s : Input) (g g' : TagScanner) : Prop := ∀ t, s.from? g.place = some t → Scanned s g (Tag.readAll t) g'

/-- Whether a tag can be scanned on. -/
def Open (s : Input) (g : TagScanner) : Prop := g.slashed = false ∧ ∃ t, s.from? g.place = some t

variable {g g' : TagScanner}

theorem ends_of_scanned (h : s.from? g.place = some t) (hg : Scanned s g (Tag.readAll t) g') : Ends s g g' :=
  fun u hu => by
    obtain rfl := Option.some.inj (h.symm.trans hu)
    exact hg

theorem Ends.skip {j : Nat} {u : Text} (h : s.from? g.place = some t) (hj : s.from? j = some u) (hlt : g.place < j)
    (he : Tag.readAll t = Tag.readAll u) (hg : Ends s { g with place := j } g') : Ends s g g' := by
  obtain ⟨hattributes, hnames, hslashed, hbehind, hforward⟩ := hg u hj
  rw [addAll_goTo] at hattributes hnames
  exact ends_of_scanned h (he ▸ ⟨hattributes, hnames, hslashed, hbehind, Nat.le_trans (Nat.le_of_lt hlt) hforward⟩)

theorem Ends.cons {j : Nat} {u : Text} {a : Attribute Text} (h : s.from? g.place = some t) (hj : s.from? j = some u)
    (hlt : g.place < j) (he : Tag.readAll t = (Tag.readAll u).cons a)
    (hg : Ends s { g.add a.name a.value with place := j } g') : Ends s g g' := by
  obtain ⟨hattributes, hnames, hslashed, hbehind, hforward⟩ := hg u hj
  rw [addAll_goTo] at hattributes hnames
  exact ends_of_scanned h (he ▸ ⟨hattributes, hnames, hslashed, hbehind, Nat.le_trans (Nat.le_of_lt hlt) hforward⟩)

theorem refines_attribute? {i : Nat} {c : Char} {r : Text} (hs : g.slashed = false) (h : s.from? g.place = some t)
    (hr : skipBlanks t = c :: r) (hi : g.place ≤ i) (hbehind : s.from? i = some (c :: r)) (hgt : c ≠ '>')
    (hslash : c ≠ '/') : Pass.Refines place s.size (Open s) (Ends s) g (attribute? s g i) := by
  obtain ⟨stop, hskip, hstop, hslice, hrest⟩ := Input.exists_skip? asciiTest_isAttributeChar hbehind
  simp only [attribute?, hskip, hslice, Option.bind_eq_bind, Option.bind_some, Option.pure_def]
  cases hc : Element.isAttributeChar c with
  | true =>
    have hpos : 0 < byteLength ((c :: r).takeWhile Element.isAttributeChar) :=
      byteLength_pos (by simp [List.takeWhile_cons_of_pos hc])
    obtain ⟨j, hvalue, hj, hend⟩ := exists_value? hrest
    have hsize := Input.add_byteLength hend
    rw [if_neg (by omega), hvalue, Option.bind_some, ← add_fold, ← Attribute.read_name]
    have hlt : g.place < j := by omega
    exact .again hlt (by simp only; omega)
      ⟨⟨hs, _, hend⟩, fun a ha => ha.cons h hend hlt (Tag.readAll_of_isAttributeChar hr hc)⟩
  | false =>
    have hascii := lt_of_test_ne (fun _ => isAttributeChar_of_le) (by simp [hc] : Element.isAttributeChar c ≠ true)
    have hnext := Input.from?_succ hbehind hascii
    have hsize := Input.add_byteLength hnext
    rw [List.takeWhile_cons_of_neg (by simp [hc]), byteLength] at hstop
    have hlt : g.place < i + 1 := by omega
    rw [if_pos (by omega)]
    exact .again hlt (by simp only; omega) ⟨⟨hs, _, hnext⟩, fun a ha => ha.skip h hnext hlt
      (Tag.readAll_of_not_isAttributeChar hr hgt (fun hcs => hslash hcs.1) hc)⟩

theorem refines_pass? (hg : g.Open s) : Pass.Refines place s.size (Open s) (Ends s) g (pass? s g) := by
  obtain ⟨hs, t, h⟩ := hg
  obtain ⟨i, hskip, hi, -, hbehind⟩ := Input.exists_skip? asciiTest_isBlank h
  rw [← skipBlanks] at hbehind
  have hsize := Input.add_byteLength hbehind
  cases hr : skipBlanks t with
  | nil =>
    rw [hr] at hsize hbehind
    rw [byteLength] at hsize
    simp only [pass?, hskip, Option.bind_eq_bind, Option.bind_some, Option.pure_def, if_neg (by omega : ¬i < s.size)]
    exact .done (ends_of_scanned h (Tag.readAll_of_nil hr ▸ ⟨rfl, rfl, hs, hbehind, by simp only; omega⟩))
  | cons c r =>
    rw [hr] at hbehind
    obtain ⟨d, hd, hof⟩ := Input.exists_byte? hbehind
    have hgt : d = '>' ↔ c = '>' := hof.eq_iff (by decide)
    have hslash : d = '/' ↔ c = '/' := hof.eq_iff (by decide)
    simp only [pass?, hskip, hd, beq_iff_eq, hgt, hslash, Option.bind_eq_bind, Option.bind_some, Option.pure_def,
      if_pos (Input.lt_size_of_byte? hd)]
    split
    · subst c
      have hend := Input.from?_succ hbehind (by decide)
      exact .done (ends_of_scanned h (Tag.readAll_of_gt hr ▸ ⟨rfl, rfl, hs, hend, by simp only; omega⟩))
    · split
      · subst c
        have hnext := Input.from?_succ hbehind (by decide)
        have hnextSize := Input.add_byteLength hnext
        rw [Input.isAt?_eq (asciiTest_beq (by decide)) hnext, Option.bind_some]
        split
        · rename_i hr'
          obtain ⟨r', rfl⟩ : ∃ r', r = '>' :: r' := by cases r <;> simp_all
          have hend := Input.from?_succ hnext (by decide)
          exact .done (ends_of_scanned h (Tag.readAll_of_slash_gt hr ▸ ⟨rfl, rfl, rfl, hend, by simp only; omega⟩))
        · rename_i hne
          have hlt : g.place < i + 1 := by omega
          refine .again hlt (by simp only; omega) ⟨⟨hs, _, hnext⟩, fun a ha => ha.skip h hnext hlt
            (Tag.readAll_of_not_isAttributeChar hr (by decide) (fun hcs => hne ?_) rfl)⟩
          simp [hcs.2]
      · exact refines_attribute? hs h hr (by omega) hbehind ‹_› ‹_›

theorem exists_scanned (names : NameIndex) (h : s.from? k = some t) :
    ∃ g, scan? s names k = some g ∧ Scanned s ⟨k, [], false, names⟩ (Tag.readAll t) g := by
  have hopen : Open s ⟨k, [], false, names⟩ := ⟨rfl, t, h⟩
  obtain ⟨g, hg, hends⟩ := exists_loop?_of_refines (fun _ => refines_pass?) hopen
  exact ⟨g, hg, hends t h⟩

/-- **A tag is scanned as it is read**, whatever stands in it; which of its attributes have one name is seen by their
numbers, so they are the same up to as many names as there are words. -/
theorem exists_scan? {names : NameIndex} (hn : names.Agrees) (h : s.from? k = some t) :
    ∃ g as, scan? s names k = some g ∧ k ≤ g.place ∧ s.from? g.place = some (Tag.read t).rest ∧
      g.slashed = (Tag.read t).slashed ∧ g.names.Agrees ∧ names.table.names <+: g.names.table.names ∧
      g.named? = some as ∧ (g.names.size ≤ 2 ^ 32 → as = (Tag.read t).attributes) := by
  obtain ⟨g, hg, hattributes, hnames, hslashed, hbehind, hforward⟩ := exists_scanned names h
  have hfold : ∀ a ∈ (Tag.readAll t).attributes, fold a.name = a.name := fun a ha =>
    Element.fold_of_isAttributeName (Tag.readAll_names t a ha)
  obtain ⟨hagrees, hgrows⟩ := agrees_addAll (Tag.readAll t).attributes (g := ⟨k, [], false, names⟩) hn
  have hnone : named? ⟨k, [], false, names⟩ = some [] := rfl
  obtain ⟨as, has, haseq⟩ := exists_named?_addAll hn hnone hfold
  rw [named?, ← hattributes, ← hnames] at has
  rw [← hnames] at hagrees hgrows haseq
  refine ⟨g, as, hg, hforward, hbehind, hslashed, hagrees, hgrows, has, fun hs => ?_⟩
  rw [haseq hs, List.nil_append]
  exact List.filter_eq_self.2 fun _ _ => rfl

end TagScanner
end SafeMarkup
