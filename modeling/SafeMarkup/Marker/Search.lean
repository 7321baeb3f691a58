import SafeMarkup.Marker
import SafeMarkup.Text.Bytes
/-!
# Searching a text for markers

Markers are searched for by byte offsets.  The next marker is looked for wherever its lead next stands; where no marker
begins there, the search goes on one byte later, and behind a marker it goes on where the marker ends.  Replacing the
markers copies what stands between them.

Every cut of the text may miss a place; then the whole result is `none`.
-/
namespace SafeMarkup
namespace Marker

/-- The number that some digits write, if they can be those of a marker. -/
def number? (digits : Text) : Option Nat :=
  if digits.isEmpty || indexLimit ≤ Text.digitsValue 10 digits then none else some (Text.digitsValue 10 digits)

/-- The marker that begins at byte `start`, where its lead stands. -/
def at? (nonce t : Text) (start : Nat) : Option (Option Occurrence) := do
  let digitsStart := start + Text.byteLength (lead nonce)
  let behindLead ← Text.fromByte? digitsStart t
  -- a digit is one byte
  let digitsStop := digitsStart + (behindLead.takeWhile Char.isDigit).length
  let digits ← Text.slice? digitsStart digitsStop t
  match number? digits with
  | none => return none
  | some i =>
    let behindDigits ← Text.fromByte? digitsStop t
    return if fence.isPrefixOf behindDigits then some ⟨start, digitsStop + Text.byteLength fence, i⟩ else none

/-- The first marker that begins at byte `pos` or later. -/
def next? (nonce t : Text) (pos : Nat) : Option (Option Occurrence) := do
  if _h : pos < Text.byteLength t then
    match Text.findByte? (lead nonce) (← Text.fromByte? pos t) with
    | none => return none
    | some k =>
      match ← at? nonce t (pos + k) with
      | some o => return some o
      | none => next? nonce t (pos + k + 1)
  else return none
termination_by Text.byteLength t - pos

theorem at?_start_lt_stop {nonce t : Text} {start : Nat} {o : Occurrence} (h : at? nonce t start = some (some o)) :
    start < o.stop := by
  simp only [at?, Option.bind_eq_bind, Option.bind_eq_some_iff] at h
  obtain ⟨behindLead, -, digits, -, h⟩ := h
  split at h
  · cases h
  · obtain ⟨behindDigits, -, h⟩ := Option.bind_eq_some_iff.1 h
    split at h
    · obtain rfl := Option.some.inj (Option.some.inj h)
      simp only [fence, Text.byteLength]
      have := ('$' : Char).utf8Size_pos
      omega
    · cases h

/-- The next marker ends behind the place where it is searched from. -/
theorem next?_lt_stop {nonce t : Text} {pos : Nat} {o : Occurrence} (h : next? nonce t pos = some (some o)) :
    pos < Text.byteLength t ∧ pos < o.stop := by
  fun_induction next? nonce t pos with
  | case1 pos hpos ih =>
    refine ⟨hpos, ?_⟩
    obtain ⟨rest, -, h⟩ := Option.bind_eq_some_iff.1 h
    split at h
    · cases h
    · rename_i k hk
      obtain ⟨a, ha, h⟩ := Option.bind_eq_some_iff.1 h
      split at h
      · obtain rfl := Option.some.inj (Option.some.inj h)
        have := at?_start_lt_stop ha
        omega
      · have := (ih k h).2
        omega
  | case2 => cases h

/-- The markers of a text from byte `pos` on. -/
def findFrom? (nonce t : Text) (pos : Nat) : Option (List Occurrence) :=
  match _h : next? nonce t pos with
  | none => none
  | some none => some []
  | some (some o) => (findFrom? nonce t o.stop).map (o :: ·)
termination_by Text.byteLength t - pos
decreasing_by
  have := next?_lt_stop _h
  omega

/-- The markers of a text, in order. -/
def find? (nonce t : Text) : Option (List Occurrence) := findFrom? nonce t 0

/-- Whether a text has a marker. -/
def contains? (nonce t : Text) : Option Bool := (next? nonce t 0).map Option.isSome

/-! ## Replacing -/

/-- What replacing makes of a text: one without markers stays as it is, any other becomes a new text. -/
inductive Replaced where
  | unchanged
  | made (t : Text)
  deriving DecidableEq

/-- The text from byte `start` on with the value of each marker in its place; a marker without a value is copied. -/
def copy? {m : Type → Type} [Monad m] (f : Nat → m (Option Text)) (t : Text) (start : Nat) :
    List Occurrence → OptionT m Text
  | [] => OptionT.mk (pure (Text.fromByte? start t))
  | o :: os => do
    let before ← OptionT.mk (pure (Text.slice? start o.start t))
    let own ←
      match ← OptionT.lift (f o.index) with
      | some value => pure value
      | none => OptionT.mk (pure (Text.slice? o.start o.stop t))
    let behind ← copy? f t o.stop os
    return before ++ own ++ behind

/-- The text with its markers replaced.  Values are asked for one by one, in the order of the markers. -/
def replaceAll? {m : Type → Type} [Monad m] (nonce : Text) (f : Nat → m (Option Text)) (t : Text) :
    OptionT m Replaced := do
  let os ← OptionT.mk (pure (find? nonce t))
  if os.isEmpty then return .unchanged
  return .made (← copy? f t 0 os)

end Marker
end SafeMarkup
