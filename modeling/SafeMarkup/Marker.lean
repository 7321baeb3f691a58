import SafeMarkup.Text.Basic
/-!
# Markers

A marker stands for a slot of a template while the template is read as markup: a fence, a nonce, a colon, the slot's
number in decimal and the fence again.  A text is read as pieces from left to right, a marker wherever one begins and a
single character elsewhere, and replacing markers is a map over them.
-/
namespace SafeMarkup
namespace Marker

def fence : Text := ['$', '$', '$']

/-- What stands before the number of a marker. -/
def lead (nonce : Text) : Text := fence ++ nonce ++ [':']

def write (nonce : Text) (index : Nat) : Text := lead nonce ++ Text.decimal index ++ fence

/-- Slots are numbered by words of 64 bits. -/
def indexLimit : Nat := 18446744073709551616

/-- A piece of a text: a character that begins no marker, or a marker, by the digits of its number. -/
inductive Piece where
  | char (c : Char)
  | marker (digits : Text)

/-- The number of a piece that is a marker. -/
def Piece.index? : Piece → Option Nat
  | .char _ => none
  | .marker digits => some (Text.digitsValue 10 digits)

/-- A piece as it is written. -/
def Piece.source (nonce : Text) : Piece → Text
  | .char c => [c]
  | .marker digits => lead nonce ++ digits ++ fence

/-- The digits of the marker at the start of a text, and what follows it. -/
def read? (nonce t : Text) : Option (Text × Text) :=
  match (lead nonce).isPrefixOf? t with
  | none => none
  | some t =>
    let digits := t.takeWhile Char.isDigit
    if digits.isEmpty || indexLimit ≤ Text.digitsValue 10 digits then none
    else (fence.isPrefixOf? (t.dropWhile Char.isDigit)).map (digits, ·)

/-- A marker is its lead, digits of a number below the limit, and the fence. -/
theorem exists_of_read? {nonce t digits rest : Text} (h : read? nonce t = some (digits, rest)) :
    ∃ s, (lead nonce).isPrefixOf? t = some s ∧ s.takeWhile Char.isDigit = digits ∧
      digits ≠ [] ∧ Text.digitsValue 10 digits < indexLimit ∧
      fence.isPrefixOf? (s.dropWhile Char.isDigit) = some rest := by
  unfold read? at h
  split at h
  · cases h
  · rename_i s hs
    simp only at h
    split at h
    · cases h
    · rename_i hnumber
      obtain ⟨r, hr, he⟩ := Option.map_eq_some_iff.1 h
      obtain ⟨rfl, rfl⟩ := Prod.mk.inj he
      simp only [Bool.or_eq_true, List.isEmpty_iff, decide_eq_true_eq, not_or, Nat.not_le] at hnumber
      exact ⟨s, hs, rfl, hnumber.1, hnumber.2, hr⟩

theorem read?_length {nonce t digits rest : Text} (h : read? nonce t = some (digits, rest)) :
    rest.length < t.length := by
  obtain ⟨s, hlead, -, -, -, hfence⟩ := exists_of_read? h
  have hs := Text.isPrefixOf?_length hlead
  have hrest := Text.isPrefixOf?_length hfence
  have hdrop : (s.dropWhile Char.isDigit).length ≤ s.length := (List.dropWhile_sublist _).length_le
  simp only [fence, List.length_cons, List.length_nil] at hrest
  omega

/-- The pieces of a text. -/
def pieces (nonce : Text) : Text → List Piece
  | [] => []
  | c :: t =>
    match _h : read? nonce (c :: t) with
    | some (digits, rest) => .marker digits :: pieces nonce rest
    | none => .char c :: pieces nonce t
termination_by t => t.length
decreasing_by
  · exact read?_length _h
  · simp

theorem pieces_nil (nonce : Text) : pieces nonce [] = [] := by rw [pieces]

theorem pieces_of_read? {nonce t digits rest : Text} {c : Char} (h : read? nonce (c :: t) = some (digits, rest)) :
    pieces nonce (c :: t) = .marker digits :: pieces nonce rest := by
  rw [pieces]
  split
  · rename_i he
    rw [h] at he
    cases he
    rfl
  · rename_i he
    rw [h] at he
    cases he

theorem pieces_of_read?_none {nonce t : Text} {c : Char} (h : read? nonce (c :: t) = none) :
    pieces nonce (c :: t) = .char c :: pieces nonce t := by
  rw [pieces]
  split
  · rename_i he
    rw [h] at he
    cases he
  · rfl

/-! ## Finding markers -/

/-- The numbers of the markers of a text, in order. -/
def indexes (nonce t : Text) : List Nat := (pieces nonce t).filterMap Piece.index?

def isIn (nonce t : Text) : Bool := !(indexes nonce t).isEmpty

/-- A marker of a text: the bytes before it, the bytes up to its end, its number. -/
structure Occurrence where
  start : Nat
  stop : Nat
  index : Nat
  deriving DecidableEq

/-- The markers among some pieces, the first of which is at byte `start`. -/
def locate (nonce : Text) (start : Nat) : List Piece → List Occurrence
  | [] => []
  | p :: ps =>
    let stop := start + Text.byteLength (p.source nonce)
    match p.index? with
    | none => locate nonce stop ps
    | some i => ⟨start, stop, i⟩ :: locate nonce stop ps

def occurrences (nonce t : Text) : List Occurrence := locate nonce 0 (pieces nonce t)

/-! ## Replacing markers -/

/-- A piece as it is written, unless there is a value to stand for it. -/
def Piece.replacement (nonce : Text) (p : Piece) (value : Option Text) : Text :=
  value.getD (p.source nonce)

/-- The text with every marker replaced by what `f` gives for its number, and kept where `f` gives nothing. -/
def replace (nonce : Text) (f : Nat → Option Text) (t : Text) : Text :=
  (pieces nonce t).flatMap fun p => p.replacement nonce (p.index?.bind f)

/-- `replace` where finding a value may have effects, or fail.  The markers are asked for from left to right. -/
def replaceM {m : Type → Type} [Monad m] (nonce : Text) (f : Nat → m (Option Text)) (t : Text) : m Text := do
  let parts ← (pieces nonce t).mapM fun p =>
    match p.index? with
    | none => pure (p.source nonce)
    | some i => (p.replacement nonce ·) <$> f i
  return parts.flatten

theorem replaceM_pure {m : Type → Type} [Monad m] [LawfulMonad m] (nonce : Text) (f : Nat → Option Text) (t : Text) :
    replaceM nonce (fun i => (pure (f i) : m (Option Text))) t = pure (replace nonce f t) := by
  have h : ∀ p : Piece, (match p.index? with
      | none => pure (p.source nonce)
      | some i => (p.replacement nonce ·) <$> (pure (f i) : m (Option Text))) =
      pure (p.replacement nonce (p.index?.bind f)) := by
    intro p
    cases p <;> simp [Piece.index?, Piece.replacement]
  simp only [replaceM, h, replace, List.flatMap_def]
  rw [List.mapM_pure]
  simp

end Marker
end SafeMarkup
