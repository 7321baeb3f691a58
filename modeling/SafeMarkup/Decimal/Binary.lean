/-!
# Binary floating-point words

A word holds a sign, an exponent and a significand.  Read as a number it is not a number, infinite, or a significand
times a power of two.
-/
namespace SafeMarkup
namespace Decimal

/-- How many bits of a word hold the significand and the exponent; one more holds the sign. -/
structure Format where
  significandBits : Nat
  exponentBits : Nat

/-- The number `significand * 2 ^ exponent`; `lowest` tells whether the significand is the least one of its exponent,
so that the number below is nearer than the number above. -/
structure Binary where
  significand : Nat
  exponent : Int
  lowest : Bool

/-- What a word stands for. -/
inductive Word where
  | notANumber
  | infinite (negative : Bool)
  | finite (negative : Bool) (magnitude : Binary)

namespace Format

def single : Format := ⟨23, 8⟩

def double : Format := ⟨52, 11⟩

/-- The exponent of the least numbers. -/
def leastExponent (f : Format) : Int := 2 - Int.ofNat (1 <<< (f.exponentBits - 1) + f.significandBits)

def read (f : Format) (bits : Nat) : Word :=
  let significand := bits % (1 <<< f.significandBits)
  let exponent := (bits >>> f.significandBits) % (1 <<< f.exponentBits)
  let negative := (bits >>> (f.significandBits + f.exponentBits)) % 2 == 1
  if exponent == 1 <<< f.exponentBits - 1 then
    if significand == 0 then .infinite negative else .notANumber
  else if exponent == 0 then .finite negative ⟨significand, f.leastExponent, false⟩
  else
    .finite negative
      ⟨1 <<< f.significandBits + significand, f.leastExponent + (exponent - 1), significand == 0 && exponent != 1⟩

end Format
end Decimal
end SafeMarkup
