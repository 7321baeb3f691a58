import SafeMarkup.Trusted
import Mathlib
/-!
# References read back

What decoding does to a written reference and to the three escapes.  A reference is exactly a body of letters, digits
and `#` with a `;` behind it (`read?_eq_some_iff`), so it never reaches past a character that no body holds
(`decode_append`), and an escaped text decodes to itself whatever follows it (`decode_escape`).
-/
namespace SafeMarkup
namespace Reference

/-- The characters that a body may hold. -/
def isBodyChar (c : Char) : Bool := c.isAlphanum || c == '#'

theorem isBodyChar_of_isHexDigit {c : Char} (h : isHexDigit c = true) : isBodyChar c = true := by
  simp only [isHexDigit, Bool.or_eq_true, Bool.and_eq_true, decide_eq_true_eq] at h
  simp only [isBodyChar, Char.isAlphanum, Char.isAlpha, Char.isUpper, Char.isLower, Bool.or_eq_true, Bool.and_eq_true,
    decide_eq_true_eq]
  obtain (h | ⟨h1, h2⟩) | ⟨h1, h2⟩ := h
  · exact .inl (.inr h)
  · exact .inl (.inl (.inr ⟨h1, Char.le_trans h2 (by decide)⟩))
  · exact .inl (.inl (.inl ⟨h1, Char.le_trans h2 (by decide)⟩))

theorem isBodyChar_of_isDigit {c : Char} (h : c.isDigit = true) : isBodyChar c = true := by
  simp [isBodyChar, Char.isAlphanum, h]

theorem number?_all {radix : Nat} {p : Char → Bool} {digits : Text} {d : Char} (h : number? radix p digits = some d) :
    ∀ c ∈ digits, p c = true := by
  unfold number? at h
  split at h
  · rename_i hd
    exact List.all_eq_true.1 (Bool.and_eq_true_iff.1 hd).2
  · cases h

theorem named_isBodyChar : ∀ p ∈ named, ∀ c ∈ p.1, isBodyChar c = true := by
  have hall : named.all (fun p => p.1.all isBodyChar) = true := by decide
  intro p hp
  exact List.all_eq_true.1 (List.all_eq_true.1 hall p hp)

theorem mem_named_of_lookup {body : Text} {d : Char} (h : named.lookup body = some d) : (body, d) ∈ named := by
  obtain ⟨l, k, hl, hb⟩ := List.lookup_eq_some_iff.1 h
  rw [hl]
  exact List.mem_append_right _ (List.mem_cons_self ..)

theorem isBodyChar_of_ofBody? {body : Text} {d : Char} (h : ofBody? body = some d) :
    ∀ c ∈ body, isBodyChar c = true := by
  unfold ofBody? at h
  split at h
  · intro c hc
    rcases List.mem_cons.1 hc with rfl | hc
    · decide
    rcases List.mem_cons.1 hc with rfl | hc
    · decide
    exact isBodyChar_of_isHexDigit (number?_all h c hc)
  · intro c hc
    rcases List.mem_cons.1 hc with rfl | hc
    · decide
    rcases List.mem_cons.1 hc with rfl | hc
    · decide
    exact isBodyChar_of_isHexDigit (number?_all h c hc)
  · intro c hc
    rcases List.mem_cons.1 hc with rfl | hc
    · decide
    exact isBodyChar_of_isDigit (number?_all h c hc)
  · exact named_isBodyChar _ (mem_named_of_lookup h)

theorem takeWhile_take_semicolon (n : Nat) (rest : Text) : ((';' :: rest).take n).takeWhile (· != ';') = [] := by
  cases n <;> simp

/-- **A reference is a body that stands for a character, and `;`.** -/
theorem read?_eq_some_iff {t rest : Text} {d : Char} :
    read? t = some (d, rest) ↔ ∃ body, t = body ++ ';' :: rest ∧ body.length ≤ bodyLimit ∧ ofBody? body = some d := by
  constructor
  · intro h
    unfold read? at h
    simp only at h
    split at h
    · rename_i r hr
      obtain ⟨d', hd, he⟩ := Option.map_eq_some_iff.1 h
      obtain ⟨rfl, rfl⟩ := Prod.mk.inj he
      have hp : (t.take bodyLimit).takeWhile (· != ';') <+: t :=
        (List.takeWhile_prefix _).trans (List.take_prefix _ _)
      refine ⟨_, ?_, ?_, hd⟩
      · conv => lhs; rw [← List.prefix_iff_eq_append.1 hp, hr]
      · exact Nat.le_trans (List.takeWhile_prefix _).length_le (List.length_take_le _ _)
    · cases h
  · rintro ⟨body, rfl, hl, hb⟩
    have hs : ∀ c ∈ body, (c != ';') = true := fun c hc => by
      rw [bne_iff_ne]
      rintro rfl
      exact absurd (isBodyChar_of_ofBody? hb _ hc) (by decide)
    have ht : ((body ++ ';' :: rest).take bodyLimit).takeWhile (· != ';') = body := by
      rw [List.take_append, List.take_of_length_le hl, List.takeWhile_append_of_pos hs, takeWhile_take_semicolon,
        List.append_nil]
    unfold read?
    simp only [ht, List.drop_left, hb, Option.map_some]

theorem read?_append {t rest : Text} {d : Char} (h : read? t = some (d, rest)) (z : Text) :
    read? (t ++ z) = some (d, rest ++ z) := by
  obtain ⟨body, rfl, hl, hb⟩ := read?_eq_some_iff.1 h
  exact read?_eq_some_iff.2 ⟨body, by simp, hl, hb⟩

/-- Whether a reference that is being read ends before a text. -/
def Breaks (z : Text) : Prop := ∀ c ∈ z.head?, isBodyChar c = false ∧ c ≠ ';'

theorem read?_of_append {t z rest : Text} {d : Char} (hz : Breaks z) (h : read? (t ++ z) = some (d, rest)) :
    ∃ r, rest = r ++ z ∧ read? t = some (d, r) := by
  obtain ⟨body, he, hl, hb⟩ := read?_eq_some_iff.1 h
  obtain ⟨r, ht, hr⟩ | ⟨r, ht, hr⟩ := List.append_eq_append_iff.1 he
  · -- the body would go on into `z`, whose first character stops it
    cases r with
    | nil => exact absurd rfl (hz ';' (by rw [hr]; rfl)).2
    | cons e r =>
      have he := (hz e (by rw [hr]; rfl)).1
      rw [isBodyChar_of_ofBody? hb e (by rw [ht]; simp)] at he
      cases he
  · cases r with
    | nil =>
      rw [List.nil_append] at hr
      exact absurd rfl (hz ';' (by rw [← hr]; rfl)).2
    | cons e r =>
      rw [List.cons_append] at hr
      obtain ⟨rfl, rfl⟩ := List.cons.inj hr
      exact ⟨r, rfl, read?_eq_some_iff.2 ⟨body, ht, hl, hb⟩⟩

theorem decode_nil : decode [] = [] := by rw [decode]

/-- **Decoding can be done in parts** that no reference spans. -/
theorem decode_append (s : Text) {z : Text} (hz : Breaks z) : decode (s ++ z) = decode s ++ decode z := by
  fun_induction decode s with
  | case1 => rfl
  | case2 c t h d rest hr ih =>
    rw [eq_of_beq h, List.cons_append, decode_of_read? (read?_append hr z), ih, List.cons_append]
  | case3 c t h hr ih =>
    rw [eq_of_beq h, List.cons_append, decode_of_read?_none, ih, List.cons_append]
    rw [Option.eq_none_iff_forall_not_mem]
    rintro ⟨d, rest⟩ hm
    obtain ⟨r, -, hs⟩ := read?_of_append hz hm
    rw [hr] at hs
    cases hs
  | case4 c t h ih => rw [List.cons_append, decode_cons_of_ne (by simpa using h), ih, List.cons_append]

theorem decode_append_of_notMem {s : Text} (h : '&' ∉ s) (t : Text) : decode (s ++ t) = s ++ decode t := by
  induction s with
  | nil => rfl
  | cons c s ih =>
    rw [List.mem_cons, not_or] at h
    rw [List.cons_append, decode_cons_of_ne (Ne.symm h.1), ih h.2, List.cons_append]

theorem breaks_amp (t : Text) : Breaks ('&' :: t) := by
  rintro c ⟨⟩
  decide

/-! ## Escapes -/

theorem decode_reference (body : Text) {d : Char} (hl : body.length ≤ bodyLimit) (hb : ofBody? body = some d)
    (z : Text) : decode ('&' :: body ++ ';' :: z) = d :: decode z :=
  decode_of_read? (read?_eq_some_iff.2 ⟨body, rfl, hl, hb⟩)

theorem decode_inText (c : Char) (z : Text) : decode (inText c ++ z) = c :: decode z := by
  unfold inText
  split
  · exact decode_reference ['a', 'm', 'p'] (by decide) (by decide) z
  · exact decode_reference ['l', 't'] (by decide) (by decide) z
  · exact decode_reference ['g', 't'] (by decide) (by decide) z
  · exact decode_reference ['n', 'b', 's', 'p'] (by decide) (by decide) z
  · rename_i h _ _ _
    exact decode_cons_of_ne h z

theorem decode_inValue (c : Char) (z : Text) : decode (inValue c ++ z) = c :: decode z := by
  unfold inValue
  split
  · exact decode_reference ['q', 'u', 'o', 't'] (by decide) (by decide) z
  · exact decode_inText c z

theorem decode_anywhere (c : Char) (z : Text) : decode (anywhere c ++ z) = c :: decode z := by
  unfold anywhere
  split
  · exact decode_reference ['a', 'm', 'p'] (by decide) (by decide) z
  · exact decode_reference ['l', 't'] (by decide) (by decide) z
  · exact decode_reference ['g', 't'] (by decide) (by decide) z
  · exact decode_reference ['q', 'u', 'o', 't'] (by decide) (by decide) z
  · exact decode_reference ['#', '3', '9'] (by decide) (by decide) z
  · exact decode_reference ['#', '0'] (by decide) (by decide) z
  · rename_i h _ _ _ _ _
    exact decode_cons_of_ne h z

/-- **An escaped text decodes to itself, whatever follows it.** -/
theorem decode_escape {e : Char → Text} (he : ∀ c z, decode (e c ++ z) = c :: decode z) (z : Text) :
    ∀ s : Text, decode (s.flatMap e ++ z) = s ++ decode z
  | [] => rfl
  | c :: s => by rw [List.flatMap_cons, List.append_assoc, he, decode_escape he z s, List.cons_append]

theorem decode_escapeText (s z : Text) : decode (escapeText s ++ z) = s ++ decode z := decode_escape decode_inText z s

theorem decode_escapeAnywhere (s z : Text) : decode ((Trusted.escape s).content ++ z) = s ++ decode z :=
  decode_escape decode_anywhere z s

/-- What an escape writes decodes to the text alone, once nothing follows it. -/
theorem decode_of_decode_append {e s : Text} (h : ∀ z, decode (e ++ z) = s ++ decode z) : decode e = s := by
  have hnil := h []
  rwa [List.append_nil, decode_nil, List.append_nil] at hnil

theorem decode_escapeValue (s : Text) : decode (escapeValue s) = s :=
  decode_of_decode_append fun z => decode_escape decode_inValue z s

theorem lt_notMem_inText (c : Char) : '<' ∉ inText c := by
  unfold inText
  split
  · decide
  · decide
  · decide
  · decide
  · rename_i h _ _
    simpa using Ne.symm h

/-- The references that `anywhere` writes. -/
def escapes : List Text :=
  [['&', 'a', 'm', 'p', ';'], ['&', 'l', 't', ';'], ['&', 'g', 't', ';'], ['&', 'q', 'u', 'o', 't', ';'],
    ['&', '#', '3', '9', ';'], ['&', '#', '0', ';']]

/-- The characters that could begin or end markup or a value, and the null character. -/
def special : List Char := ['<', '>', '"', '\'', '\x00']

theorem anywhere_cases (c : Char) : anywhere c ∈ escapes ∨ c ≠ '&' ∧ c ∉ special ∧ anywhere c = [c] := by
  unfold anywhere
  split
  · exact .inl (by decide)
  · exact .inl (by decide)
  · exact .inl (by decide)
  · exact .inl (by decide)
  · exact .inl (by decide)
  · exact .inl (by decide)
  · rename_i hamp hlt hgt hquot hapos hnull
    refine .inr ⟨hamp, ?_, rfl⟩
    simp only [special, List.mem_cons, List.not_mem_nil, or_false, not_or]
    exact ⟨hlt, hgt, hquot, hapos, hnull⟩

/-- An escape is `&` and characters that are neither `&` nor special. -/
theorem exists_of_mem_escapes {e : Text} (h : e ∈ escapes) :
    ∃ body, e = '&' :: body ∧ '&' ∉ body ∧ ∀ c ∈ e, c ∉ special := by
  have hall : ∀ e ∈ escapes, e = '&' :: e.tail ∧ '&' ∉ e.tail ∧ e.all (fun c => c ∉ special) = true := by decide
  obtain ⟨he, hamp, hspecial⟩ := hall e h
  exact ⟨e.tail, he, hamp, fun c hc => of_decide_eq_true (List.all_eq_true.1 hspecial c hc)⟩

theorem notMem_special_of_mem_anywhere {c d : Char} (h : d ∈ anywhere c) : d ∉ special := by
  rcases anywhere_cases c with he | ⟨-, hc, he⟩
  · obtain ⟨body, -, -, hall⟩ := exists_of_mem_escapes he
    exact hall d h
  · rw [he, List.mem_singleton] at h
    rwa [h]

/-- **Nothing special is left of an escaped text.** -/
theorem notMem_special_of_mem_escape {s : Text} {c : Char} (h : c ∈ (Trusted.escape s).content) : c ∉ special := by
  obtain ⟨d, -, hd⟩ := List.mem_flatMap.1 h
  exact notMem_special_of_mem_anywhere hd

theorem quote_notMem_inValue (c : Char) : '"' ∉ inValue c := by
  unfold inValue
  split
  · decide
  · rename_i h
    unfold inText
    split
    · decide
    · decide
    · decide
    · decide
    · simpa using Ne.symm h

theorem lt_notMem_escapeText (s : Text) : '<' ∉ escapeText s := by
  simp [escapeText, lt_notMem_inText]

theorem lt_notMem_escape (s : Text) : '<' ∉ (Trusted.escape s).content := fun h =>
  notMem_special_of_mem_escape h (by decide)

theorem quote_notMem_escapeValue (s : Text) : '"' ∉ escapeValue s := by
  simp [escapeValue, quote_notMem_inValue]

end Reference
end SafeMarkup
