import SafeMarkup.Text.Input
import SafeMarkup.Proofs.TagGrammar
/-!
# What bytes say of a text

A byte below 128 is a character, and stands where the text can be cut (`Input.exists_from?_of_byte?`); each byte of
another character is at least 128 (`ByteOf`).  So a test that does not tell characters from 128 on apart finds the same
in bytes as in characters (`Input.exists_skip?`, `Input.startsFolded?_eq`), and what is found by bytes below 128 is a
place of the text, wherever the search began.
-/
namespace SafeMarkup

open Text

/-! ## Loops that come to an end -/

section

variable {σ α : Type} {place : σ → Nat} {stop : Nat} {pass? : σ → Option (Pass σ α)} {Inv : σ → Prop} {Post : α → Prop}

/-- How a pass ends that does not fail: further on and with what held before it, or with the result of the loop. -/
inductive Pass.Sound (place : σ → Nat) (stop : Nat) (Inv : σ → Prop) (Post : α → Prop) (s : σ) :
    Option (Pass σ α) → Prop where
  | again {s' : σ} (hlt : place s < place s') (hle : place s' ≤ stop) (h : Inv s') :
    Sound place stop Inv Post s (some (.again s'))
  | done {a : α} (h : Post a) : Sound place stop Inv Post s (some (.done a))

theorem Pass.Sound.mono {Inv' : σ → Prop} {Post' : α → Prop} {s : σ} {p : Option (Pass σ α)}
    (h : Sound place stop Inv Post s p) (hinv : ∀ s', Inv s' → Inv' s') (hpost : ∀ a, Post a → Post' a) :
    Sound place stop Inv' Post' s p := by
  cases h with
  | again hlt hle h => exact .again hlt hle (hinv _ h)
  | done h => exact .done (hpost _ h)

/-- **A loop ends if none of its passes fails.** -/
theorem exists_loop? (hpass : ∀ s, Inv s → Pass.Sound place stop Inv Post s (pass? s)) {s : σ} (h : Inv s) :
    ∃ a, loop? place stop pass? s = some a ∧ Post a := by
  fun_induction loop? place stop pass? s with
  | case1 s hs =>
    have hsound := hpass s h
    rw [hs] at hsound
    cases hsound
  | case2 s a hs =>
    have hsound := hpass s h
    rw [hs] at hsound
    cases hsound with
    | done ha => exact ⟨a, rfl, ha⟩
  | case3 s s' hs hmoved ih =>
    have hsound := hpass s h
    rw [hs] at hsound
    cases hsound with
    | again _ _ hinv => exact ih hinv
  | case4 s s' hs hmoved =>
    have hsound := hpass s h
    rw [hs] at hsound
    cases hsound with
    | again hlt hle _ => exact absurd ⟨hlt, hle⟩ hmoved

/-- How a pass ends if what a loop gives is known of each state: what is so of the next state is so of this one. -/
def Pass.Refines (place : σ → Nat) (stop : Nat) (Ok : σ → Prop) (Gives : σ → α → Prop) (s : σ) :
    Option (Pass σ α) → Prop :=
  Pass.Sound place stop (fun s' => Ok s' ∧ ∀ a, Gives s' a → Gives s a) (Gives s) s

/-- What a loop gives, if each pass that goes on leaves a state that gives the same. -/
theorem exists_loop?_of_refines {Ok : σ → Prop} {Gives : σ → α → Prop}
    (hpass : ∀ s, Ok s → Pass.Refines place stop Ok Gives s (pass? s)) {s : σ} (h : Ok s) :
    ∃ a, loop? place stop pass? s = some a ∧ Gives s a := by
  have hsound : ∀ s', (Ok s' ∧ ∀ a, Gives s' a → Gives s a) →
      Pass.Sound place stop (fun s' => Ok s' ∧ ∀ a, Gives s' a → Gives s a) (Gives s) s' (pass? s') := fun s' hs' =>
    (hpass s' hs'.1).mono (fun _ h => ⟨h.1, fun a ha => hs'.2 a (h.2 a ha)⟩) hs'.2
  exact exists_loop? hsound ⟨h, fun _ ha => ha⟩

end

theorem advance?_eq {goesOn? : Nat → Option Bool} {stop k j : Nat} (hk : k ≤ j) (hj : j ≤ stop)
    (hgo : ∀ i, k ≤ i → i < j → goesOn? i = some true) (hend : goesOn? j = some false) :
    advance? stop goesOn? k = some j := by
  have hpass : ∀ i, k ≤ i ∧ i ≤ j → Pass.Sound id stop (fun i => k ≤ i ∧ i ≤ j) (· = j) i
      ((goesOn? i).map fun goesOn => if goesOn then .again (i + 1) else .done i) := by
    rintro i ⟨hki, hij⟩
    rcases Nat.lt_or_eq_of_le hij with hlt | rfl
    · rw [hgo i hki hlt]
      exact .again (Nat.lt_succ_self i) (Nat.le_trans hlt hj) ⟨Nat.le_succ_of_le hki, hlt⟩
    · rw [hend]
      exact .done rfl
  obtain ⟨_, hloop, rfl⟩ := exists_loop? hpass ⟨Nat.le_refl k, hk⟩
  exact hloop

/-! ## Bytes and characters -/

/-- `d` is a byte of `c`, as far as bytes can be told apart from characters. -/
structure ByteOf (d c : Char) : Prop where
  eq_of_lt : c.toNat < 128 → d = c
  le_of_le : 128 ≤ c.toNat → 128 ≤ d.toNat

theorem byteOf_of_mem {c : Char} {b : UInt8} (h : b ∈ String.utf8EncodeChar c) : ByteOf (Char.ofUInt8 b) c := by
  have htoNat : (Char.ofUInt8 b).toNat = b.toNat := rfl
  have hval : c.val.toNat = c.toNat := rfl
  simp only [String.utf8EncodeChar, hval] at h
  split at h
  · rw [List.mem_singleton] at h
    refine ⟨fun _ => Char.toNat_inj.1 ?_, fun _ => by omega⟩
    rw [htoNat, h, UInt8.toNat_ofNat']
    omega
  · refine ⟨fun _ => by omega, fun _ => ?_⟩
    rw [htoNat]
    split at h
    · rcases List.mem_pair.1 h with rfl | rfl <;> rw [UInt8.toNat_ofNat'] <;> omega
    · split at h <;> simp only [List.mem_cons, List.not_mem_nil, or_false] at h
      · rcases h with rfl | rfl | rfl <;> rw [UInt8.toNat_ofNat'] <;> omega
      · rcases h with rfl | rfl | rfl | rfl <;> rw [UInt8.toNat_ofNat'] <;> omega

theorem ByteOf.lt_of_lt {d c : Char} (h : ByteOf d c) (hd : d.toNat < 128) : c.toNat < 128 := by
  by_contra hc
  exact absurd (h.le_of_le (Nat.le_of_not_lt hc)) (Nat.not_le.2 hd)

/-- A test that does not tell characters from 128 on apart. -/
def AsciiTest (p : Char → Bool) : Prop := ∃ b, ∀ c : Char, 128 ≤ c.toNat → p c = b

/-- A character that a test tells from those from 128 on is below 128. -/
theorem lt_of_test_ne {p : Char → Bool} {b : Bool} (hp : ∀ c : Char, 128 ≤ c.toNat → p c = b) {c : Char}
    (h : p c ≠ b) : c.toNat < 128 := Nat.lt_of_not_le fun hc => h (hp c hc)

theorem ByteOf.test_eq {d c : Char} (h : ByteOf d c) {p : Char → Bool} (hp : AsciiTest p) : p d = p c := by
  obtain ⟨b, hb⟩ := hp
  rcases Nat.lt_or_ge c.toNat 128 with hc | hc
  · rw [h.eq_of_lt hc]
  · rw [hb d (h.le_of_le hc), hb c hc]

theorem ByteOf.eq_iff {d c x : Char} (h : ByteOf d c) (hx : x.toNat < 128) : d = x ↔ c = x := by
  constructor
  · rintro rfl
    exact (h.eq_of_lt (h.lt_of_lt hx)).symm
  · rintro rfl
    exact h.eq_of_lt hx

theorem beq_eq_false_of_le {c x : Char} (hx : x.toNat < 128) (hc : 128 ≤ c.toNat) : (c == x) = false := by
  rw [beq_eq_false_iff_ne]
  rintro rfl
  exact absurd hx (Nat.not_lt.2 hc)

theorem asciiTest_beq {x : Char} (hx : x.toNat < 128) : AsciiTest (· == x) := ⟨false, fun _ => beq_eq_false_of_le hx⟩

theorem asciiTest_bne {x : Char} (hx : x.toNat < 128) : AsciiTest (· != x) :=
  ⟨true, fun _ hc => congrArg not (beq_eq_false_of_le hx hc)⟩

theorem AsciiTest.or {p q : Char → Bool} (hp : AsciiTest p) (hq : AsciiTest q) : AsciiTest fun c => p c || q c := by
  obtain ⟨a, ha⟩ := hp
  obtain ⟨b, hb⟩ := hq
  exact ⟨a || b, fun c hc => by simp only [ha c hc, hb c hc]⟩

theorem isBlank_of_le {c : Char} (hc : 128 ≤ c.toNat) : isBlank c = false := by
  simp only [isBlank, beq_eq_false_of_le (x := ' ') (by decide) hc, beq_eq_false_of_le (x := '\t') (by decide) hc,
    beq_eq_false_of_le (x := '\n') (by decide) hc, beq_eq_false_of_le (x := '\x0c') (by decide) hc,
    beq_eq_false_of_le (x := '\r') (by decide) hc, Bool.or_false]

theorem isAlphanum_of_le {c : Char} (hc : 128 ≤ c.toNat) : c.isAlphanum = false := by
  have hbound : 'Z'.val.toNat < 128 ∧ 'z'.val.toNat < 128 ∧ '9'.val.toNat < 128 := by decide
  simp only [Char.isAlphanum, Char.isAlpha, Char.isUpper, Char.isLower, Char.isDigit, ge_iff_le, UInt32.le_iff_toNat_le,
    ← Char.toNat_val, ← Bool.decide_or, ← Bool.decide_and, decide_eq_false_iff_not] at hc ⊢
  omega

theorem isAlpha_of_le {c : Char} (hc : 128 ≤ c.toNat) : c.isAlpha = false :=
  (Bool.or_eq_false_iff.1 (isAlphanum_of_le hc)).1

theorem toLower_of_le {c : Char} (hc : 128 ≤ c.toNat) : c.toLower = c :=
  Char.toLower_eq_of_not_isUpper (by simp [(Bool.or_eq_false_iff.1 (isAlpha_of_le hc)).1])

theorem toLower_lt {c : Char} (hc : c.toNat < 128) : c.toLower.toNat < 128 := by
  by_cases hu : c.isUpper = true
  · have halpha : c.toLower.isAlpha = true := by simp [Char.isAlpha, hu]
    by_contra hge
    rw [isAlpha_of_le (Nat.le_of_not_lt hge)] at halpha
    cases halpha
  · rwa [Char.toLower_eq_of_not_isUpper hu]

theorem lt_of_toLower_eq {c d : Char} (h : c.toLower = d.toLower) (hd : d.toNat < 128) : c.toNat < 128 := by
  by_contra hc
  rw [toLower_of_le (Nat.le_of_not_lt hc)] at h
  exact hc (h ▸ toLower_lt hd)

theorem asciiTest_isBlank : AsciiTest isBlank := ⟨false, fun _ => isBlank_of_le⟩

theorem asciiTest_isAlpha : AsciiTest Char.isAlpha := ⟨false, fun _ => isAlpha_of_le⟩

theorem isNameChar_of_le {c : Char} (hc : 128 ≤ c.toNat) : Element.isNameChar c = false := by
  simp only [Element.isNameChar, isAlphanum_of_le hc, beq_eq_false_of_le (x := '-') (by decide) hc,
    beq_eq_false_of_le (x := '_') (by decide) hc, beq_eq_false_of_le (x := ':') (by decide) hc, Bool.or_false]

theorem asciiTest_isNameChar : AsciiTest Element.isNameChar := ⟨false, fun _ => isNameChar_of_le⟩

theorem isAttributeChar_of_le {c : Char} (hc : 128 ≤ c.toNat) : Element.isAttributeChar c = true := by
  simp only [Element.isAttributeChar, isBlank_of_le hc, bne, beq_eq_false_of_le (x := '/') (by decide) hc,
    beq_eq_false_of_le (x := '>') (by decide) hc, beq_eq_false_of_le (x := '=') (by decide) hc,
    beq_eq_false_of_le (x := '<') (by decide) hc, beq_eq_false_of_le (x := '"') (by decide) hc,
    beq_eq_false_of_le (x := '\'') (by decide) hc, Bool.not_false, Bool.and_true]

theorem asciiTest_isAttributeChar : AsciiTest Element.isAttributeChar := ⟨true, fun _ => isAttributeChar_of_le⟩

/-- Each byte of a text is one of a character in it. -/
theorem Text.exists_append_of_lt {t : Text} {k : Nat} (h : k < byteLength t) :
    ∃ u c v j, t = u ++ c :: v ∧ k = byteLength u + j ∧ j < c.utf8Size := by
  induction t generalizing k with
  | nil => exact absurd h (Nat.not_lt_zero k)
  | cons c t ih =>
    rcases Nat.lt_or_ge k c.utf8Size with hk | hk
    · exact ⟨[], c, t, k, rfl, (Nat.zero_add k).symm, hk⟩
    · rw [byteLength] at h
      obtain ⟨u, d, v, j, rfl, hj, hlt⟩ := ih (k := k - c.utf8Size) (by omega)
      exact ⟨c :: u, d, v, j, rfl, by rw [byteLength]; omega, hlt⟩

theorem Text.length_flatMap_utf8EncodeChar (t : Text) : (t.flatMap String.utf8EncodeChar).length = byteLength t := by
  induction t with
  | nil => rfl
  | cons c t ih => rw [List.flatMap_cons, List.length_append, String.length_utf8EncodeChar, ih, byteLength]

theorem Text.getElem?_flatMap_utf8EncodeChar (u t : Text) {c : Char} {j : Nat} (h : j < c.utf8Size) :
    ((u ++ c :: t).flatMap String.utf8EncodeChar)[byteLength u + j]? = (String.utf8EncodeChar c)[j]? := by
  rw [List.flatMap_append, ← length_flatMap_utf8EncodeChar, List.getElem?_append_right (Nat.le_add_right ..),
    Nat.add_sub_cancel_left, List.flatMap_cons,
    List.getElem?_append_left (by rwa [String.length_utf8EncodeChar])]

/-- What matches a text of characters below 128 is as long as it is, in bytes. -/
theorem Text.exists_of_afterFolded? {p t r : Text} (hp : ∀ c ∈ p, c.toNat < 128) (h : afterFolded? p t = some r) :
    ∃ u, t = u ++ r ∧ byteLength u = p.length := by
  obtain ⟨u, hu, rfl⟩ := afterFolded?_eq_some_iff.1 h
  rw [sameFolded_iff] at hu
  have hlength := congrArg List.length hu
  simp only [fold, List.length_map] at hlength
  refine ⟨u, rfl, (byteLength_of_lt fun c hc => ?_).trans hlength⟩
  have hmem : c.toLower ∈ fold p := hu ▸ List.mem_map_of_mem hc
  obtain ⟨d, hd, hcd⟩ := List.mem_map.1 hmem
  exact lt_of_toLower_eq hcd.symm (hp d hd)

/-! ## Places -/

namespace Input

variable {s : Input} {i k : Nat} {c d : Char} {t u v : Text}

theorem size_eq (s : Input) : s.size = byteLength s.text := by
  rw [size, s.encoded, List.size_toArray, length_flatMap_utf8EncodeChar]

theorem from?_eq_some_iff : s.from? k = some t ↔ ∃ u, s.text = u ++ t ∧ byteLength u = k := by
  rw [from?, fromByte?, Option.map_eq_some_iff]
  constructor
  · rintro ⟨⟨u, t⟩, h, rfl⟩
    exact ⟨u, splitByte?_eq_some_iff.1 h⟩
  · rintro ⟨u, h⟩
    exact ⟨(u, t), splitByte?_eq_some_iff.2 h, rfl⟩

theorem from?_ofText (t : Text) : (ofText t).from? 0 = some t := from?_eq_some_iff.2 ⟨[], rfl, rfl⟩

theorem from?_append (h : s.from? k = some (u ++ t)) : s.from? (k + byteLength u) = some t := by
  obtain ⟨w, hw, rfl⟩ := from?_eq_some_iff.1 h
  exact from?_eq_some_iff.2 ⟨w ++ u, by rw [hw, List.append_assoc], byteLength_append w u⟩

theorem slice?_append (h : s.from? k = some (u ++ t)) : s.slice? k (k + byteLength u) = some u := by
  obtain ⟨w, hw, rfl⟩ := from?_eq_some_iff.1 h
  rw [slice?, hw, Text.slice?_append]

/-- **A text is cut out between two places of it**, and nowhere else. -/
theorem slice?_eq_some_iff {stop : Nat} :
    s.slice? k stop = some u ↔ ∃ t, s.from? k = some (u ++ t) ∧ stop = k + byteLength u := by
  constructor
  · intro h
    rw [slice?, Text.slice?] at h
    split at h
    · obtain ⟨r, hr, h⟩ := Option.bind_eq_some_iff.1 h
      obtain ⟨⟨u, t⟩, hsplit, rfl⟩ := Option.map_eq_some_iff.1 h
      obtain ⟨rfl, hu⟩ := splitByte?_eq_some_iff.1 hsplit
      exact ⟨t, hr, by simp only; omega⟩
    · cases h
  · rintro ⟨t, h, rfl⟩
    exact slice?_append h

theorem add_byteLength (h : s.from? k = some t) : k + byteLength t = s.size := by
  obtain ⟨w, hw, rfl⟩ := from?_eq_some_iff.1 h
  rw [size_eq, hw, byteLength_append]

/-- Of two places the later one stands behind some of the text that is behind the other. -/
theorem exists_append_of_le (ht : s.from? k = some t) (hv : s.from? i = some v) (h : k ≤ i) :
    ∃ u, t = u ++ v ∧ i = k + byteLength u := by
  obtain ⟨a, ha, rfl⟩ := from?_eq_some_iff.1 ht
  obtain ⟨b, hb, rfl⟩ := from?_eq_some_iff.1 hv
  obtain ⟨u, rfl, rfl⟩ | ⟨u, rfl, rfl⟩ := List.append_eq_append_iff.1 (ha.symm.trans hb)
  · exact ⟨u, rfl, byteLength_append a u⟩
  · cases u with
    | nil => exact ⟨[], rfl, by simp [byteLength]⟩
    | cons c u =>
      have hpos := byteLength_pos (List.cons_ne_nil c u)
      rw [byteLength_append] at h
      omega

theorem exists_byte?_add (h : s.from? k = some (c :: t)) {j : Nat} (hj : j < c.utf8Size) :
    ∃ d, s.byte? (k + j) = some d ∧ ByteOf d c := by
  obtain ⟨u, hu, rfl⟩ := from?_eq_some_iff.1 h
  have hlt : j < (String.utf8EncodeChar c).length := by rwa [String.length_utf8EncodeChar]
  refine ⟨Char.ofUInt8 (String.utf8EncodeChar c)[j], ?_, byteOf_of_mem (List.getElem_mem hlt)⟩
  rw [byte?, s.encoded, List.getElem?_toArray, hu, getElem?_flatMap_utf8EncodeChar u t hj, List.getElem?_eq_getElem hlt,
    Option.map_some]

theorem exists_byte? (h : s.from? k = some (c :: t)) : ∃ d, s.byte? k = some d ∧ ByteOf d c :=
  exists_byte?_add h c.utf8Size_pos

/-- Each byte in a part of a text is one of a character of that part. -/
theorem exists_byte?_of_lt (h : s.from? k = some (u ++ t)) (hk : k ≤ i) (hi : i < k + byteLength u) :
    ∃ d c, s.byte? i = some d ∧ c ∈ u ∧ ByteOf d c := by
  obtain ⟨a, c, b, j, rfl, hj, hlt⟩ := Text.exists_append_of_lt (t := u) (k := i - k) (by omega)
  rw [List.append_assoc, List.cons_append] at h
  obtain ⟨d, hd, hof⟩ := exists_byte?_add (from?_append h) hlt
  refine ⟨d, c, ?_, by simp, hof⟩
  rw [← hd]
  congr 1
  omega

/-- **A byte cannot be read behind the end**, and can be read everywhere else. -/
theorem byte?_eq_none_iff : s.byte? k = none ↔ s.size ≤ k := by
  rw [byte?, Option.map_eq_none_iff, size, Array.getElem?_eq_none_iff]

theorem lt_size_of_byte? (h : s.byte? k = some d) : k < s.size := by
  by_contra hle
  rw [byte?_eq_none_iff.2 (Nat.le_of_not_lt hle)] at h
  cases h

theorem exists_byte?_of_lt_size (h : k < s.size) : ∃ d, s.byte? k = some d :=
  Option.ne_none_iff_exists'.1 fun hnone => absurd h (Nat.not_lt.2 (byte?_eq_none_iff.1 hnone))

/-- **A byte below 128 stands where the text can be cut**, and is the character there. -/
theorem exists_from?_of_byte? (h : s.byte? k = some d) (hd : d.toNat < 128) : ∃ t, s.from? k = some (d :: t) := by
  have hlt := lt_size_of_byte? h
  rw [size_eq] at hlt
  obtain ⟨u, c, v, j, hsplit, rfl, hj⟩ := Text.exists_append_of_lt hlt
  have hfrom : s.from? (byteLength u) = some (c :: v) := from?_eq_some_iff.2 ⟨u, hsplit, rfl⟩
  obtain ⟨e, he, hof⟩ := exists_byte?_add hfrom hj
  obtain rfl := Option.some.inj (h.symm.trans he)
  have hc := hof.lt_of_lt hd
  obtain rfl : j = 0 := by
    rw [utf8Size_of_lt hc] at hj
    omega
  rw [hof.eq_of_lt hc]
  exact ⟨v, hfrom⟩

theorem byte?_cons (h : s.from? k = some (c :: t)) (hc : c.toNat < 128) : s.byte? k = some c := by
  obtain ⟨d, hd, hof⟩ := exists_byte? h
  rw [← hof.eq_of_lt hc]
  exact hd

theorem from?_succ (h : s.from? k = some (c :: t)) (hc : c.toNat < 128) : s.from? (k + 1) = some t := by
  have hstep := from?_append (u := [c]) h
  rwa [byteLength, byteLength, utf8Size_of_lt hc] at hstep

/-! ## Searching -/

/-- A byte is tested as the character is that it begins. -/
theorem any_byte? {p : Char → Bool} (hp : AsciiTest p) (h : s.from? k = some t) :
    (s.byte? k).any p = t.head?.any p := by
  cases t with
  | nil =>
    have hend : s.byte? k = none := byte?_eq_none_iff.2 (Nat.le_of_eq (add_byteLength h).symm)
    rw [hend]
    rfl
  | cons c t =>
    obtain ⟨d, hd, hof⟩ := exists_byte? h
    rw [hd]
    exact hof.test_eq hp

theorem isAt?_of_lt {p : Char → Bool} {stop : Nat} (h : s.byte? k = some d) (hk : k < stop) :
    s.isAt? p stop k = some (p d) := by
  rw [isAt?, if_pos hk, h, Option.map_some]

theorem isAt?_of_le {p : Char → Bool} {stop : Nat} (h : stop ≤ k) : s.isAt? p stop k = some false := by
  rw [isAt?, if_neg (Nat.not_lt.2 h)]

theorem isAt?_eq {p : Char → Bool} (hp : AsciiTest p) (h : s.from? k = some t) :
    s.isAt? p s.size k = some (t.head?.any p) := by
  cases t with
  | nil => exact isAt?_of_le (Nat.le_of_eq (add_byteLength h).symm)
  | cons c t =>
    obtain ⟨d, hd, hof⟩ := exists_byte? h
    rw [isAt?_of_lt hd (lt_size_of_byte? hd), hof.test_eq hp]
    rfl

theorem skip?_eq {p : Char → Bool} {stop j : Nat} (hk : k ≤ j) (hj : j ≤ stop)
    (hgo : ∀ i, k ≤ i → i < j → ∃ d, s.byte? i = some d ∧ p d = true)
    (hend : j < stop → ∃ d, s.byte? j = some d ∧ p d = false) : s.skip? p stop k = some j := by
  refine advance?_eq hk hj (fun i hi hij => ?_) ?_
  · obtain ⟨d, hd, hp⟩ := hgo i hi hij
    rw [isAt?_of_lt hd (Nat.lt_of_lt_of_le hij hj), hp]
  · rcases Nat.lt_or_eq_of_le hj with hlt | rfl
    · obtain ⟨d, hd, hp⟩ := hend hlt
      rw [isAt?_of_lt hd hlt, hp]
    · exact isAt?_of_le (Nat.le_refl j)

/-- **Bytes are skipped as characters are.** -/
theorem exists_skip? {p : Char → Bool} (hp : AsciiTest p) (h : s.from? k = some t) :
    ∃ j, s.skip? p s.size k = some j ∧ j = k + byteLength (t.takeWhile p) ∧ s.slice? k j = some (t.takeWhile p) ∧
      s.from? j = some (t.dropWhile p) := by
  have hsplit : s.from? k = some (t.takeWhile p ++ t.dropWhile p) := by rw [List.takeWhile_append_dropWhile, h]
  have hbehind := from?_append hsplit
  have hsize := add_byteLength hbehind
  refine ⟨_, skip?_eq (Nat.le_add_right ..) (by omega) (fun i hi hij => ?_) (fun hlt => ?_), rfl,
    slice?_append hsplit, hbehind⟩
  · obtain ⟨d, c, hd, hc, hof⟩ := exists_byte?_of_lt hsplit hi hij
    exact ⟨d, hd, by rw [hof.test_eq hp, List.mem_takeWhile_imp hc]⟩
  · cases hrest : t.dropWhile p with
    | nil =>
      rw [hrest, byteLength] at hsize
      omega
    | cons c r =>
      rw [hrest] at hbehind
      obtain ⟨d, hd, hof⟩ := exists_byte? hbehind
      have hc := List.head_dropWhile_not p (l := t) (by simp [hrest])
      simp only [hrest, List.head_cons] at hc
      exact ⟨d, hd, by rw [hof.test_eq hp, hc]⟩

/-- A search finds the first place of a byte, or there is none. -/
theorem seek?_cases {start stop : Nat} (hstart : start ≤ stop) (hstop : stop ≤ s.size) :
    (s.seek? c start stop = some none ∧ ∀ i, start ≤ i → i < stop → s.byte? i ≠ some c) ∨
      ∃ k, s.seek? c start stop = some (some k) ∧ start ≤ k ∧ k < stop ∧ s.byte? k = some c ∧
        ∀ i, start ≤ i → i < k → s.byte? i ≠ some c := by
  have hother : ∀ i, i < stop → s.byte? i ≠ some c → ∃ d, s.byte? i = some d ∧ (d != c) = true := fun i hi hne => by
    obtain ⟨d, hd⟩ := exists_byte?_of_lt_size (Nat.lt_of_lt_of_le hi hstop)
    exact ⟨d, hd, bne_iff_ne.2 fun he => hne (he ▸ hd)⟩
  have hguard : (guard (start ≤ stop ∧ stop ≤ s.size) : Option Unit) = some () := if_pos ⟨hstart, hstop⟩
  by_cases h : ∃ k, start ≤ k ∧ k < stop ∧ s.byte? k = some c
  · classical
    obtain ⟨hk, hlt, hbyte⟩ := Nat.find_spec h
    have hfirst : ∀ i, start ≤ i → i < Nat.find h → s.byte? i ≠ some c := fun i hi hik hc =>
      Nat.find_min h hik ⟨hi, Nat.lt_trans hik hlt, hc⟩
    have hskip : s.skip? (· != c) stop start = some (Nat.find h) := skip?_eq hk (Nat.le_of_lt hlt)
      (fun i hi hik => hother i (Nat.lt_trans hik hlt) (hfirst i hi hik)) fun _ => ⟨c, hbyte, by simp⟩
    refine .inr ⟨Nat.find h, ?_, hk, hlt, hbyte, hfirst⟩
    rw [seek?, hguard, hskip]
    exact congrArg some (if_pos hlt)
  · have hnone : ∀ i, start ≤ i → i < stop → s.byte? i ≠ some c := fun i hi his hc => h ⟨i, hi, his, hc⟩
    have hskip : s.skip? (· != c) stop start = some stop := skip?_eq hstart (Nat.le_refl stop)
      (fun i hi his => hother i his (hnone i hi his)) fun hlt => absurd hlt (Nat.lt_irrefl stop)
    refine .inl ⟨?_, hnone⟩
    rw [seek?, hguard, hskip]
    exact congrArg some (if_neg (Nat.lt_irrefl stop))

/-- A search for a byte below 128 finds the character. -/
theorem seek?_append_cons (hc : c.toNat < 128) (h : s.from? k = some (u ++ c :: t)) (hu : c ∉ u) {stop : Nat}
    (hlt : k + byteLength u < stop) (hstop : stop ≤ s.size) :
    s.seek? c k stop = some (some (k + byteLength u)) := by
  have hbyte := byte?_cons (from?_append h) hc
  have hfirst : ∀ i, k ≤ i → i < k + byteLength u → s.byte? i ≠ some c := fun i hi hik he => by
    obtain ⟨d, e, hd, he', hof⟩ := exists_byte?_of_lt h hi hik
    obtain rfl := Option.some.inj (he.symm.trans hd)
    exact hu (hof.eq_of_lt (hof.lt_of_lt hc) ▸ he')
  rcases seek?_cases (c := c) (by omega : k ≤ stop) hstop with ⟨-, hnone⟩ | ⟨j, hj, hkj, hjs, hjbyte, hjfirst⟩
  · exact absurd hbyte (hnone _ (Nat.le_add_right ..) hlt)
  · rcases Nat.lt_trichotomy j (k + byteLength u) with hlt' | rfl | hgt
    · exact absurd hjbyte (hfirst j hkj hlt')
    · exact hj
    · exact absurd hbyte (hjfirst _ (Nat.le_add_right ..) hgt)

theorem seek?_of_notMem (hc : c.toNat < 128) (h : s.from? k = some (u ++ t)) (hu : c ∉ u) {stop : Nat} (hk : k ≤ stop)
    (hstop : stop ≤ k + byteLength u) : s.seek? c k stop = some none := by
  have hsize := add_byteLength h
  rw [byteLength_append] at hsize
  rcases seek?_cases (c := c) hk (by omega : stop ≤ s.size) with ⟨hnone, -⟩ | ⟨j, -, hkj, hjs, hjbyte, -⟩
  · exact hnone
  · obtain ⟨d, e, hd, he, hof⟩ := exists_byte?_of_lt h hkj (Nat.lt_of_lt_of_le hjs hstop)
    obtain rfl := Option.some.inj (hjbyte.symm.trans hd)
    exact absurd (hof.eq_of_lt (hof.lt_of_lt hc) ▸ he) hu

theorem sameFrom_eq {p : Text} (hp : ∀ c ∈ p, c.toNat < 128) (h : s.from? k = some t) (hl : p.length ≤ byteLength t) :
    startsFolded?.sameFrom s p k = some (afterFolded? p t).isSome := by
  induction p generalizing k t with
  | nil => rfl
  | cons a p ih =>
    obtain ⟨ha, hp⟩ := List.forall_mem_cons.1 hp
    cases t with
    | nil => exact absurd hl (Nat.not_succ_le_zero _)
    | cons c t =>
      obtain ⟨d, hd, hof⟩ := exists_byte? h
      rw [startsFolded?.sameFrom, hd, afterFolded?]
      change (if (d.toLower == a.toLower) = true then _ else _) = _
      rcases Nat.lt_or_ge c.toNat 128 with hc | hc
      · obtain rfl := hof.eq_of_lt hc
        rw [byteLength, utf8Size_of_lt hc, List.length_cons] at hl
        rw [ih hp (from?_succ h hc) (by omega), Bool.beq_comm]
        split <;> rfl
      · have hne : ∀ e : Char, 128 ≤ e.toNat → e.toLower ≠ a.toLower := fun e he heq =>
          absurd (lt_of_toLower_eq heq ha) (Nat.not_lt.2 he)
        rw [if_neg (by simpa using hne d (hof.le_of_le hc)), if_neg (by simpa using (hne c hc).symm)]
        rfl

/-- **Bytes are compared as characters are.** -/
theorem startsFolded?_eq {p : Text} (hp : ∀ c ∈ p, c.toNat < 128) (h : s.from? k = some t) :
    s.startsFolded? p k = some (afterFolded? p t).isSome := by
  have hsize := add_byteLength h
  rw [startsFolded?]
  split
  · exact sameFrom_eq hp h (by omega)
  · cases hr : afterFolded? p t with
    | none => rfl
    | some r =>
      obtain ⟨u, rfl, hu⟩ := Text.exists_of_afterFolded? hp hr
      rw [byteLength_append] at hsize
      omega

/-- Up to where a text is cut the condition holds at no place. -/
theorem eq_false_of_lt_cutAt {q : Text → Bool} (h : s.from? k = some t) (hv : s.from? i = some v) (hk : k ≤ i)
    (hi : i < k + byteLength (cutAt q t).1) : q v = false := by
  obtain ⟨u, rfl, rfl⟩ := exists_append_of_le h hv hk
  obtain ⟨w, hw, -⟩ | ⟨w, hw, hv⟩ := List.append_eq_append_iff.1 (cutAt_append q (u ++ v))
  all_goals have hlength := congrArg byteLength hw; rw [byteLength_append] at hlength
  · omega
  · cases w with
    | nil =>
      rw [byteLength] at hlength
      omega
    | cons c w =>
      rw [hv]
      exact cutAt_fst_of_eq hw

theorem from?_cutAt (q : Text → Bool) (h : s.from? k = some t) :
    s.from? (k + byteLength (cutAt q t).1) = some (cutAt q t).2 :=
  from?_append (by rw [cutAt_append, h])

theorem slice?_cutAt (q : Text → Bool) (h : s.from? k = some t) :
    s.slice? k (k + byteLength (cutAt q t).1) = some (cutAt q t).1 :=
  slice?_append (t := (cutAt q t).2) (by rw [cutAt_append, h])

end Input
end SafeMarkup
