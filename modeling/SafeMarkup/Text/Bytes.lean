import SafeMarkup.Text.Basic
/-!
# Byte offsets

A place in a text is given by the number of bytes before it.  Inside a character and behind the end of the text there
is no place, and a text cannot be cut there; all other offsets cut it in one way (`Text.splitByte?_eq_some_iff`).
-/
namespace SafeMarkup
namespace Text

/-- The text before a byte offset and the text behind it. -/
def splitByte? : Nat → Text → Option (Text × Text)
  | 0, t => some ([], t)
  | _ + 1, [] => none
  | n + 1, c :: t =>
    if c.utf8Size ≤ n + 1 then (splitByte? (n + 1 - c.utf8Size) t).map fun r => (c :: r.1, r.2) else none

/-- The text behind a byte offset. -/
def fromByte? (start : Nat) (t : Text) : Option Text := (splitByte? start t).map (·.2)

/-- The text between two byte offsets. -/
def slice? (start stop : Nat) (t : Text) : Option Text := do
  if start ≤ stop then
    let r ← fromByte? start t
    (splitByte? (stop - start) r).map (·.1)
  else none

/-- The byte offset at which `p` first stands in a text. -/
def findByte? (p : Text) : Text → Option Nat
  | [] => if p.isEmpty then some 0 else none
  | c :: t => if p.isPrefixOf (c :: t) then some 0 else (findByte? p t).map (c.utf8Size + ·)

theorem byteLength_append (s t : Text) : byteLength (s ++ t) = byteLength s + byteLength t := by
  induction s with
  | nil => exact (Nat.zero_add _).symm
  | cons c s ih => rw [List.cons_append, byteLength, byteLength, ih, Nat.add_assoc]

theorem byteLength_pos {t : Text} (h : t ≠ []) : 0 < byteLength t := by
  cases t with
  | nil => exact absurd rfl h
  | cons c t => exact Nat.add_pos_left c.utf8Size_pos _

theorem length_le_byteLength (t : Text) : t.length ≤ byteLength t := by
  induction t with
  | nil => exact Nat.le_refl 0
  | cons c t ih =>
    have := c.utf8Size_pos
    rw [List.length_cons, byteLength]
    omega

theorem utf8Size_of_lt {c : Char} (h : c.toNat < 128) : c.utf8Size = 1 :=
  Char.utf8Size_eq_one_iff.2 (UInt32.le_iff_toNat_le.2 (Nat.le_of_lt_succ h))

/-- Characters below 128 are bytes. -/
theorem byteLength_of_lt {t : Text} (h : ∀ c ∈ t, c.toNat < 128) : byteLength t = t.length := by
  induction t with
  | nil => rfl
  | cons c t ih =>
    obtain ⟨hc, ht⟩ := List.forall_mem_cons.1 h
    rw [byteLength, List.length_cons, ih ht, utf8Size_of_lt hc, Nat.add_comm]

theorem splitByte?_append (s t : Text) : splitByte? (byteLength s) (s ++ t) = some (s, t) := by
  induction s with
  | nil => rw [byteLength, List.nil_append, splitByte?]
  | cons c s ih =>
    obtain ⟨n, hn⟩ : ∃ n, byteLength (c :: s) = n + 1 :=
      Nat.exists_eq_succ_of_ne_zero (Nat.pos_iff_ne_zero.1 (byteLength_pos (List.cons_ne_nil c s)))
    have hsize : n + 1 = c.utf8Size + byteLength s := hn.symm
    rw [hn, List.cons_append, splitByte?, if_pos (by omega), hsize, Nat.add_sub_cancel_left, ih]
    rfl

/-- **A text is cut where some characters of it end**, and nowhere else. -/
theorem splitByte?_eq_some_iff {n : Nat} {t s r : Text} :
    splitByte? n t = some (s, r) ↔ t = s ++ r ∧ byteLength s = n := by
  refine ⟨fun h => ?_, fun ⟨ht, hn⟩ => ht ▸ hn ▸ splitByte?_append s r⟩
  fun_induction splitByte? n t generalizing s with
  | case1 t =>
    obtain ⟨rfl, rfl⟩ := Prod.mk.inj (Option.some.inj h)
    exact ⟨rfl, rfl⟩
  | case2 => cases h
  | case3 n c t hc ih =>
    obtain ⟨⟨a, b⟩, hab, he⟩ := Option.map_eq_some_iff.1 h
    obtain ⟨rfl, rfl⟩ := Prod.mk.inj he
    obtain ⟨rfl, hn⟩ := ih hab
    exact ⟨rfl, by rw [byteLength, hn]; omega⟩
  | case4 => cases h

theorem fromByte?_append (s t : Text) : fromByte? (byteLength s) (s ++ t) = some t := by
  rw [fromByte?, splitByte?_append]
  rfl

theorem slice?_append (s t u : Text) :
    slice? (byteLength s) (byteLength s + byteLength t) (s ++ (t ++ u)) = some t := by
  rw [slice?, if_pos (Nat.le_add_right ..), fromByte?_append, Nat.add_sub_cancel_left]
  change (splitByte? (byteLength t) (t ++ u)).map (·.1) = some t
  rw [splitByte?_append]
  rfl

end Text
end SafeMarkup
