import SafeMarkup.Proofs.Scanning
/-!
# What decoding does

A numeral is digits of a radix with the number they write, any number of zeros in front included, and a body stands for
a character by its name or by its number as a numeral.  Decoding replaces every reference whose body is at most
`bodyLimit` long, and nothing else; so it replaces every reference there is where no longer body stands for a character
(`decode_spec`).
-/
namespace SafeMarkup
namespace Reference

/-- `c` is the digit of the number `d` in a radix, in either case. -/
def Digit (radix : Nat) (c : Char) (d : Nat) : Prop :=
  d < radix ∧ (c = Nat.digitChar d ∨ c = (Nat.digitChar d).toUpper)

/-- Digits, and the number that they write. -/
inductive Numeral (radix : Nat) : Text → Nat → Prop where
  | digit {c : Char} {d : Nat} (h : Digit radix c d) : Numeral radix [c] d
  | more {t : Text} {n d : Nat} {c : Char} (ht : Numeral radix t n) (h : Digit radix c d) :
      Numeral radix (t ++ [c]) (radix * n + d)

/-- The bodies of references, with the characters that they stand for. -/
inductive StandsFor : Text → Char → Prop where
  | amp : StandsFor ['a', 'm', 'p'] '&'
  | lt : StandsFor ['l', 't'] '<'
  | gt : StandsFor ['g', 't'] '>'
  | quot : StandsFor ['q', 'u', 'o', 't'] '"'
  | apos : StandsFor ['a', 'p', 'o', 's'] '\''
  | nbsp : StandsFor ['n', 'b', 's', 'p'] '\u00a0'
  | decimal {digits : Text} {c : Char} (h : Numeral 10 digits c.toNat) : StandsFor ('#' :: digits) c
  | hexadecimal {x : Char} {digits : Text} {c : Char} (hx : x = 'x' ∨ x = 'X') (h : Numeral 16 digits c.toNat) :
      StandsFor ('#' :: x :: digits) c

/-- Reading a text from left to right, every reference whose body is in `R` is replaced by its character, and every
character that begins none is kept. -/
inductive Decodes (R : Text → Char → Prop) : Text → Text → Prop where
  | nil : Decodes R [] []
  | reference {body t out : Text} {c : Char} (hb : R body c) (ht : Decodes R t out) :
      Decodes R ('&' :: body ++ ';' :: t) (c :: out)
  | kept {t out : Text} {c : Char} (hc : ∀ body d rest, R body d → c :: t ≠ '&' :: body ++ ';' :: rest)
      (ht : Decodes R t out) : Decodes R (c :: t) (c :: out)

/-! ## Numerals -/

instance (radix : Nat) (c : Char) (d : Nat) : Decidable (Digit radix c d) := inferInstanceAs (Decidable (_ ∧ _))

theorem exists_digit_of_toNat {radix lo hi b : Nat} {c : Char} (hc : lo ≤ c.toNat ∧ c.toNat ≤ hi)
    (h : ∀ n ≤ hi, lo ≤ n → Digit radix (Char.ofNat n) (n - b)) : ∃ d, Digit radix c d := by
  have hd := h c.toNat hc.2 hc.1
  rw [Char.ofNat_toNat] at hd
  exact ⟨_, hd⟩

theorem isDigit_iff {c : Char} : c.isDigit = true ↔ ∃ d, Digit 10 c d := by
  constructor
  · intro h
    simp only [Char.isDigit, Bool.and_eq_true, decide_eq_true_eq] at h
    exact exists_digit_of_toNat (b := 48) h (by decide)
  · rintro ⟨d, hd, hc⟩
    have hall : ∀ d < 10, (Nat.digitChar d).isDigit = true ∧ (Nat.digitChar d).toUpper.isDigit = true := by decide
    rcases hc with rfl | rfl
    · exact (hall d hd).1
    · exact (hall d hd).2

theorem isHexDigit_iff {c : Char} : isHexDigit c = true ↔ ∃ d, Digit 16 c d := by
  constructor
  · intro h
    simp only [isHexDigit, Char.isDigit, Bool.or_eq_true, Bool.and_eq_true, decide_eq_true_eq] at h
    obtain (h | h) | h := h
    · exact exists_digit_of_toNat (b := 48) h (by decide)
    · exact exists_digit_of_toNat (b := 87) h (by decide)
    · exact exists_digit_of_toNat (b := 55) h (by decide)
  · rintro ⟨d, hd, hc⟩
    have hall : ∀ d < 16, isHexDigit (Nat.digitChar d) = true ∧ isHexDigit (Nat.digitChar d).toUpper = true := by decide
    rcases hc with rfl | rfl
    · exact (hall d hd).1
    · exact (hall d hd).2

theorem digitValue_of_digit {radix d : Nat} {c : Char} (hr : radix ≤ 16) (h : Digit radix c d) :
    Text.digitsValue.digitValue c = d := by
  obtain ⟨hd, hc⟩ := h
  have hall : ∀ d < 16, Text.digitsValue.digitValue (Nat.digitChar d) = d ∧
      Text.digitsValue.digitValue (Nat.digitChar d).toUpper = d := by decide
  rcases hc with rfl | rfl
  · exact (hall d (Nat.lt_of_lt_of_le hd hr)).1
  · exact (hall d (Nat.lt_of_lt_of_le hd hr)).2

theorem digitsValue_concat (radix : Nat) (t : Text) (c : Char) :
    Text.digitsValue radix (t ++ [c]) = radix * Text.digitsValue radix t + Text.digitsValue.digitValue c := by
  simp only [Text.digitsValue, List.foldl_append, List.foldl_cons, List.foldl_nil]

section

variable {radix : Nat} {isDigit : Char → Bool}

theorem Numeral.sound (hr : radix ≤ 16) (hdigit : ∀ c, isDigit c = true ↔ ∃ d, Digit radix c d) {t : Text} {n : Nat}
    (h : Numeral radix t n) : t ≠ [] ∧ (∀ c ∈ t, isDigit c = true) ∧ Text.digitsValue radix t = n := by
  induction h with
  | @digit c d h =>
    refine ⟨List.cons_ne_nil _ _, List.forall_mem_singleton.2 ((hdigit c).2 ⟨d, h⟩), ?_⟩
    have hvalue := digitsValue_concat radix [] c
    rw [List.nil_append, digitValue_of_digit hr h] at hvalue
    exact hvalue.trans (Nat.zero_add d)
  | more _ h ih =>
    obtain ⟨-, hall, hvalue⟩ := ih
    refine ⟨by simp, ?_, ?_⟩
    · exact List.forall_mem_append.2 ⟨hall, List.forall_mem_singleton.2 ((hdigit _).2 ⟨_, h⟩)⟩
    · rw [digitsValue_concat, hvalue, digitValue_of_digit hr h]

theorem numeral_of_isDigit (hr : radix ≤ 16) (hdigit : ∀ c, isDigit c = true ↔ ∃ d, Digit radix c d) (t : Text) :
    t ≠ [] → (∀ c ∈ t, isDigit c = true) → Numeral radix t (Text.digitsValue radix t) := by
  induction t using List.reverseRecOn with
  | nil => exact fun h => absurd rfl h
  | append_singleton t c ih =>
    intro _ hall
    obtain ⟨ht, hc⟩ := List.forall_mem_append.1 hall
    obtain ⟨d, hd⟩ := (hdigit c).1 (hc c (List.mem_singleton_self c))
    rw [digitsValue_concat, digitValue_of_digit hr hd]
    by_cases hnil : t = []
    · have hvalue : radix * Text.digitsValue radix t + d = d := by
        rw [hnil]
        exact Nat.zero_add d
      rw [hvalue, hnil]
      exact .digit hd
    · exact .more (ih hnil ht) hd

/-- **A number is read where a numeral of a character's number is written.** -/
theorem number?_eq_some_iff (hr : radix ≤ 16) (hdigit : ∀ c, isDigit c = true ↔ ∃ d, Digit radix c d) {digits : Text}
    {c : Char} : number? radix isDigit digits = some c ↔ Numeral radix digits c.toNat := by
  unfold number?
  constructor
  · intro h
    split at h
    · rename_i hd
      obtain ⟨hne, hall⟩ := Bool.and_eq_true_iff.1 hd
      have hnumeral := numeral_of_isDigit hr hdigit digits (by simpa using hne) (List.all_eq_true.1 hall)
      unfold scalar? at h
      split at h
      · rename_i hvalid
        obtain rfl := Option.some.inj h
        rwa [Char.toNat_ofNat, if_pos hvalid]
      · cases h
    · cases h
  · intro h
    obtain ⟨hne, hall, hvalue⟩ := h.sound hr hdigit
    have hd : (!digits.isEmpty && digits.all isDigit) = true :=
      Bool.and_eq_true_iff.2 ⟨by simpa using hne, List.all_eq_true.2 hall⟩
    have hvalid : c.toNat.isValidChar := c.valid
    rw [if_pos hd, hvalue, scalar?, if_pos hvalid, Char.ofNat_toNat]

end

/-! ## Bodies -/

theorem decimal?_eq_some_iff {digits : Text} {c : Char} :
    number? 10 Char.isDigit digits = some c ↔ Numeral 10 digits c.toNat :=
  number?_eq_some_iff (by decide) fun _ => isDigit_iff

theorem hexadecimal?_eq_some_iff {digits : Text} {c : Char} :
    number? 16 isHexDigit digits = some c ↔ Numeral 16 digits c.toNat :=
  number?_eq_some_iff (by decide) fun _ => isHexDigit_iff

/-- **The bodies that are read are those that stand for a character.** -/
theorem ofBody?_eq_some_iff {body : Text} {c : Char} : ofBody? body = some c ↔ StandsFor body c := by
  constructor
  · intro h
    unfold ofBody? at h
    split at h
    · exact .hexadecimal (.inl rfl) (hexadecimal?_eq_some_iff.1 h)
    · exact .hexadecimal (.inr rfl) (hexadecimal?_eq_some_iff.1 h)
    · exact .decimal (decimal?_eq_some_iff.1 h)
    · have hmem := mem_named_of_lookup h
      simp only [named, List.mem_cons, Prod.mk.injEq, List.not_mem_nil, or_false] at hmem
      obtain ⟨rfl, rfl⟩ | ⟨rfl, rfl⟩ | ⟨rfl, rfl⟩ | ⟨rfl, rfl⟩ | ⟨rfl, rfl⟩ | ⟨rfl, rfl⟩ := hmem
      · exact .amp
      · exact .lt
      · exact .gt
      · exact .quot
      · exact .apos
      · exact .nbsp
  · intro h
    cases h with
    | amp => rfl
    | lt => rfl
    | gt => rfl
    | quot => rfl
    | apos => rfl
    | nbsp => rfl
    | hexadecimal hx h =>
      rcases hx with rfl | rfl
      · exact hexadecimal?_eq_some_iff.2 h
      · exact hexadecimal?_eq_some_iff.2 h
    | decimal h =>
      have hall := (h.sound (by decide) fun _ => isDigit_iff).2.1
      have hread := decimal?_eq_some_iff.2 h
      -- a decimal numeral does not begin with the mark of a hexadecimal one
      unfold ofBody?
      split
      · rename_i he
        obtain rfl := (List.cons.inj he).2
        exact absurd (hall 'x' (List.mem_cons_self ..)) (by decide)
      · rename_i he
        obtain rfl := (List.cons.inj he).2
        exact absurd (hall 'X' (List.mem_cons_self ..)) (by decide)
      · rename_i he
        obtain rfl := (List.cons.inj he).2
        exact hread
      · rename_i hne
        exact absurd rfl (hne _)

theorem StandsFor.notMem {body : Text} {c d : Char} (h : StandsFor body c) (hd : isBodyChar d = false) : d ∉ body := by
  intro hm
  rw [isBodyChar_of_ofBody? (ofBody?_eq_some_iff.2 h) d hm] at hd
  cases hd

/-! ## Replacing references -/

/-- A body of at most `bodyLimit` characters that stands for a character. -/
def IsRead (body : Text) (c : Char) : Prop := StandsFor body c ∧ body.length ≤ bodyLimit

theorem read?_eq_some_iff_isRead {t rest : Text} {c : Char} :
    read? t = some (c, rest) ↔ ∃ body, IsRead body c ∧ t = body ++ ';' :: rest := by
  rw [read?_eq_some_iff]
  constructor
  · rintro ⟨body, ht, hl, hb⟩
    exact ⟨body, ⟨ofBody?_eq_some_iff.1 hb, hl⟩, ht⟩
  · rintro ⟨body, ⟨hb, hl⟩, ht⟩
    exact ⟨body, ht, hl, ofBody?_eq_some_iff.2 hb⟩

theorem decode_of_isRead {body : Text} {c : Char} (h : IsRead body c) (t : Text) :
    decode ('&' :: body ++ ';' :: t) = c :: decode t :=
  decode_of_read? (read?_eq_some_iff_isRead.2 ⟨body, h, rfl⟩)

theorem decode_of_kept {c : Char} {t : Text} (h : ∀ body d rest, IsRead body d → c :: t ≠ '&' :: body ++ ';' :: rest) :
    decode (c :: t) = c :: decode t := by
  by_cases hc : c = '&'
  · rw [hc]
    apply decode_of_read?_none
    rw [Option.eq_none_iff_forall_not_mem]
    rintro ⟨d, rest⟩ hm
    obtain ⟨body, hb, ht⟩ := read?_eq_some_iff_isRead.1 hm
    exact h body d rest hb (by rw [hc, ht]; rfl)
  · exact decode_cons_of_ne hc t

theorem decodes_decode (s : Text) : Decodes IsRead s (decode s) := by
  fun_induction decode s with
  | case1 => exact .nil
  | case2 c t h d rest hr ih =>
    obtain ⟨body, hb, rfl⟩ := read?_eq_some_iff_isRead.1 hr
    rw [eq_of_beq h]
    exact .reference hb ih
  | case3 c t h hr ih =>
    refine .kept (fun body d rest hb he => ?_) ih
    rw [read?_eq_some_iff_isRead.2 ⟨body, hb, (List.cons.inj he).2⟩] at hr
    cases hr
  | case4 c t h ih => exact .kept (fun body d rest hb he => h (by rw [(List.cons.inj he).1]; rfl)) ih

theorem Decodes.eq_decode {s out : Text} (h : Decodes IsRead s out) : out = decode s := by
  induction h with
  | nil => exact decode_nil.symm
  | reference hb _ ih => rw [decode_of_isRead hb, ih]
  | kept hc _ ih => rw [decode_of_kept hc, ih]

/-! ## References that are too long -/

/-- One body is read behind an `&`. -/
theorem StandsFor.body_eq {b b' t t' : Text} {c c' : Char} (h : StandsFor b c) (h' : StandsFor b' c')
    (he : b ++ ';' :: t = b' ++ ';' :: t') : b = b' := by
  have hne := Text.ne_of_forall_ne (h.notMem (d := ';') (by decide))
  have hne' := Text.ne_of_forall_ne (h'.notMem (d := ';') (by decide))
  have htake := congrArg (List.takeWhile (· != ';')) he
  rwa [Text.takeWhile_append_cons hne (by decide), Text.takeWhile_append_cons hne' (by decide)] at htake

theorem StandsFor.amp_notMem {body : Text} {c : Char} (h : StandsFor body c) : '&' ∉ body ++ [';'] := by
  simp [h.notMem (d := '&') (by decide)]

/-- A reference in a text that begins with one is that one, or stands behind it. -/
theorem StandsFor.infix_cases {b body t : Text} {c d : Char} (hb : StandsFor b c) (hbody : StandsFor body d)
    (h : '&' :: body ++ [';'] <:+: '&' :: b ++ ';' :: t) : body = b ∨ '&' :: body ++ [';'] <:+: t := by
  rcases List.infix_cons_iff.1 h with ⟨v, hv⟩ | h
  · have hbodies : body ++ ';' :: v = b ++ ';' :: t := by
      rw [← List.singleton_append, ← List.append_assoc]
      exact (List.cons.inj hv).2
    exact .inl (hbody.body_eq hb hbodies)
  · have hsplit : b ++ ';' :: t = b ++ [';'] ++ t := by simp
    have h : '&' :: (body ++ [';']) <:+: b ++ ';' :: t := h
    rw [hsplit] at h
    exact .inr (Text.infix_of_infix_append hb.amp_notMem h)

theorem decode_of_long {body : Text} {c : Char} (h : StandsFor body c) (hl : bodyLimit < body.length) (t : Text) :
    decode ('&' :: body ++ ';' :: t) = '&' :: body ++ ';' :: decode t := by
  have hkept : ∀ b d rest, IsRead b d → '&' :: (body ++ ';' :: t) ≠ '&' :: b ++ ';' :: rest := by
    intro b d rest hb he
    have hbody : body = b := h.body_eq hb.1 (List.cons.inj he).2
    exact absurd (hbody ▸ hb.2) (Nat.not_le.2 hl)
  have hsplit : ∀ t : Text, body ++ ';' :: t = body ++ [';'] ++ t := by simp
  rw [List.cons_append, List.cons_append, decode_of_kept hkept, hsplit, decode_append_of_notMem h.amp_notMem, ← hsplit]

/-- Replacing all references never gives a longer text. -/
theorem Decodes.length_le {s out : Text} (h : Decodes StandsFor s out) : out.length ≤ (decode s).length := by
  induction h with
  | nil => exact Nat.zero_le _
  | @reference body t out c hb _ ih =>
    by_cases hl : body.length ≤ bodyLimit
    · rw [decode_of_isRead ⟨hb, hl⟩]
      exact Nat.succ_le_succ ih
    · rw [decode_of_long hb (Nat.not_le.1 hl)]
      simp only [List.cons_append, List.length_cons, List.length_append]
      omega
  | kept hc _ ih =>
    rw [decode_of_kept fun body d rest hb => hc body d rest hb.1]
    exact Nat.succ_le_succ ih

/-- Where all references are replaced, none of them is too long. -/
theorem Decodes.length_le_bodyLimit {s out : Text} (h : Decodes StandsFor s out) : out = decode s →
    ∀ body c, StandsFor body c → '&' :: body ++ [';'] <:+: s → body.length ≤ bodyLimit := by
  induction h with
  | nil =>
    intro _ body c _ hi
    exact absurd (List.infix_nil.1 hi) (List.cons_ne_nil _ _)
  | @reference b t out d hb ht ih =>
    intro he body c hbody hi
    by_cases hl : b.length ≤ bodyLimit
    · rw [decode_of_isRead ⟨hb, hl⟩] at he
      rcases hb.infix_cases hbody hi with rfl | hi
      · exact hl
      · exact ih (List.cons.inj he).2 body c hbody hi
    · -- a reference that is kept leaves more than its character
      have hle := ht.length_le
      have hlength := congrArg List.length he
      rw [decode_of_long hb (Nat.not_le.1 hl)] at hlength
      simp only [List.cons_append, List.length_cons, List.length_append] at hlength
      omega
  | kept hc _ ih =>
    intro he body c hbody hi
    rw [decode_of_kept fun body d rest hb => hc body d rest hb.1] at he
    rcases List.infix_cons_iff.1 hi with ⟨v, hv⟩ | hi
    · exact absurd (by rw [← hv]; simp) (hc body c v hbody)
    · exact ih (List.cons.inj he).2 body c hbody hi

theorem Decodes.standsFor {s out : Text} (h : Decodes IsRead s out) :
    (∀ body c, StandsFor body c → '&' :: body ++ [';'] <:+: s → body.length ≤ bodyLimit) →
    Decodes StandsFor s out := by
  induction h with
  | nil => exact fun _ => .nil
  | @reference b t out d hb _ ih =>
    intro hs
    refine .reference hb.1 (ih fun body c hbody hi => hs body c hbody (hi.trans ?_))
    exact ⟨'&' :: b ++ [';'], [], by simp⟩
  | @kept t out c hc _ ih =>
    intro hs
    refine .kept (fun body d rest hbody he => ?_) (ih fun body d hbody hi => hs body d hbody (hi.trans ?_))
    · exact hc body d rest ⟨hbody, hs body d hbody ⟨[], rest, by rw [he]; simp⟩⟩ he
    · exact (List.suffix_cons c t).isInfix

/-- **What decoding does to any text.**  It replaces, from left to right, the references whose body has at most
`bodyLimit` characters, and keeps all other characters; these are all references if and only if no longer body in the
text stands for a character. -/
theorem decode_spec (s : Text) :
    (∀ out, Decodes IsRead s out ↔ out = decode s) ∧
    (Decodes StandsFor s (decode s) ↔
      ∀ body c, StandsFor body c → '&' :: body ++ [';'] <:+: s → body.length ≤ bodyLimit) := by
  refine ⟨fun out => ⟨Decodes.eq_decode, ?_⟩, fun h => h.length_le_bodyLimit rfl, (decodes_decode s).standsFor⟩
  rintro rfl
  exact decodes_decode s

/-- Zeros in front of a number count: with six of them the body for a quote is too long. -/
theorem leading_zeros_count :
    Decodes StandsFor "&#00000039;".toList ['\''] ∧
      ¬Decodes StandsFor "&#00000039;".toList (decode "&#00000039;".toList) := by
  have hbody : StandsFor "#00000039".toList '\'' := .decimal (decimal?_eq_some_iff.1 (by decide))
  constructor
  · exact .reference hbody .nil
  · intro h
    have hl := h.length_le_bodyLimit rfl _ _ hbody (List.infix_refl _)
    exact absurd hl (by decide)

end Reference
end SafeMarkup
