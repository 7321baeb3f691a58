import SafeMarkup.Text.Bytes
/-!
# Reading a text by its bytes

A text with its bytes in UTF-8.  Its places are counted in bytes, so a place may stand inside a character; a byte is read
as the character with its number, which for a byte below 128 is the character that it encodes.

A byte behind the end cannot be read, a text cannot be cut inside a character, and a loop has to come further with each
pass that goes on: where one of these fails the whole result is `none`.
-/
namespace SafeMarkup

/-! ## Loops -/

/-- How a pass of a loop ends. -/
inductive Pass (σ α : Type) where
  | again (s : σ)
  | done (a : α)

/-- Passes over a state that stands at a place.  Each pass that goes on has to bring the state further, and not behind
`stop`. -/
def loop? {σ α : Type} (place : σ → Nat) (stop : Nat) (pass? : σ → Option (Pass σ α)) (s : σ) : Option α :=
  match pass? s with
  | none => none
  | some (.done a) => some a
  | some (.again s') => if _h : place s < place s' ∧ place s' ≤ stop then loop? place stop pass? s' else none
termination_by stop - place s

/-- The first place at which to stop, reached one by one. -/
def advance? (stop : Nat) (goesOn? : Nat → Option Bool) (k : Nat) : Option Nat :=
  loop? id stop (fun k => (goesOn? k).map fun goesOn => if goesOn then .again (k + 1) else .done k) k

/-! ## Inputs -/

/-- A text with its bytes. -/
structure Input where
  text : Text
  bytes : Array UInt8
  encoded : bytes = (text.flatMap String.utf8EncodeChar).toArray

namespace Input

def ofText (t : Text) : Input := ⟨t, (t.flatMap String.utf8EncodeChar).toArray, rfl⟩

def size (s : Input) : Nat := s.bytes.size

/-- The byte at a place. -/
def byte? (s : Input) (k : Nat) : Option Char := s.bytes[k]?.map Char.ofUInt8

/-- The text from a place on. -/
def from? (s : Input) (start : Nat) : Option Text := Text.fromByte? start s.text

/-- The text between two places. -/
def slice? (s : Input) (start stop : Nat) : Option Text := Text.slice? start stop s.text

/-- Whether a place is before `stop` and its byte satisfies `p`. -/
def isAt? (s : Input) (p : Char → Bool) (stop k : Nat) : Option Bool :=
  if k < stop then (s.byte? k).map p else some false

/-- The place behind the bytes before `stop` that satisfy `p`. -/
def skip? (s : Input) (p : Char → Bool) (stop k : Nat) : Option Nat := advance? stop (s.isAt? p stop) k

/-- The first place of a byte between two places. -/
def seek? (s : Input) (c : Char) (start stop : Nat) : Option (Option Nat) := do
  guard (start ≤ stop ∧ stop ≤ s.size)
  let k ← s.skip? (· != c) stop start
  return if k < stop then some k else none

/-- Whether the bytes of `p` stand at a place, the case of ASCII letters set aside. -/
def startsFolded? (s : Input) (p : Text) (k : Nat) : Option Bool :=
  if k + p.length ≤ s.size then sameFrom p k else some false
where
  sameFrom : Text → Nat → Option Bool
    | [], _ => some true
    | c :: p, k => do if (← s.byte? k).toLower == c.toLower then sameFrom p (k + 1) else return false

end Input
end SafeMarkup
