import SafeMarkup.Text.Basic
import SafeMarkup.Decimal.Binary
/-!
# Shortest decimals

A number of a binary format is written with the fewest digits that read back as it.  What reads back lies within half
the distance to the neighbours, the two ends included when the significand is even.  The search goes through the powers
of ten downwards and stops at the first whose multiples meet that interval; of two multiples it takes the nearer one,
and the upper one of two that are equally near.  The digits are written positionally, never with an exponent.
-/
namespace SafeMarkup
namespace Decimal

/-- A positive number and the interval that reads back as it, all in units of `1 / unit`. -/
structure Interval where
  low : Nat
  value : Nat
  high : Nat
  unit : Nat
  closed : Bool

namespace Interval

/-- The interval of a binary number, in quarters of its last binary place. -/
def ofBinary (b : Binary) : Interval :=
  let m := 4 * b.significand
  let up := b.exponent.toNat
  ⟨(m - if b.lowest then 1 else 2) <<< up, m <<< up, (m + 2) <<< up, 4 <<< (-b.exponent).toNat,
    b.significand % 2 == 0⟩

/-- Whether `n` whole units lie in the interval. -/
def holds (i : Interval) (n : Nat) : Bool :=
  let x := n * i.unit
  if i.closed then i.low ≤ x && x ≤ i.high else i.low < x && x < i.high

/-- The same numbers in tenths. -/
def tenth (i : Interval) : Interval :=
  { i with low := 10 * i.low, value := 10 * i.value, high := 10 * i.high }

/-- The whole number of units in the interval that is nearest to the value, the upper one of two. -/
def nearest? (i : Interval) : Option Nat :=
  let n := i.value / i.unit
  match i.holds n, i.holds (n + 1) with
  | true, true => if 2 * (i.value % i.unit) < i.unit then some n else some (n + 1)
  | true, false => some n
  | false, true => some (n + 1)
  | false, false => none

/-- The digits of the shortest decimal and the power of ten of the last one, searched from the power `k` down.  The
value itself is whole after as many steps as its unit has factors of two. -/
def shortest : Nat → Interval → Int → Nat × Int
  | 0, i, k => (i.value / i.unit, k)
  | steps + 1, i, k =>
    match i.nearest? with
    | some n => (n, k)
    | none => shortest steps i.tenth (k - 1)

end Interval

/-- The shortest decimal of a positive number: `n` and `k` for `n * 10 ^ k`. -/
def shortest (b : Binary) : Nat × Int :=
  let i := Interval.ofBinary b
  let places := (Text.decimal (i.high / i.unit)).length
  Interval.shortest (places + (-b.exponent).toNat) { i with unit := i.unit * Nat.pow 10 places } places

/-- `n * 10 ^ k` written positionally. -/
def positional (n : Nat) (k : Int) : Text :=
  let digits := Text.decimal n
  let places := (-k).toNat
  if places = 0 then digits ++ List.replicate k.toNat '0'
  else if digits.length ≤ places then
    "0.".toList ++ List.replicate (places - digits.length) '0' ++ digits
  else digits.take (digits.length - places) ++ '.' :: digits.drop (digits.length - places)

def signed (negative : Bool) (t : Text) : Text := if negative then '-' :: t else t

/-- A word of a format as text. -/
def Format.write (f : Format) (bits : Nat) : Text :=
  match f.read bits with
  | .notANumber => "NaN".toList
  | .infinite negative => signed negative "inf".toList
  | .finite negative b =>
    signed negative (if b.significand = 0 then ['0'] else positional (shortest b).1 (shortest b).2)

end Decimal
end SafeMarkup
