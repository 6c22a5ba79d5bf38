namespace Didl.Decimal

structure Format where
  fractionBits : Nat
  exponentBits : Nat

namespace Format

def single : Format := ⟨23, 8⟩

def double : Format := ⟨52, 11⟩

def fraction (f : Format) (bits : Nat) : Nat := bits % Nat.pow 2 f.fractionBits

def exponent (f : Format) (bits : Nat) : Nat :=
  bits / Nat.pow 2 f.fractionBits % Nat.pow 2 f.exponentBits

def maxExponent (f : Format) : Nat := Nat.pow 2 f.exponentBits - 1

def negative (f : Format) (bits : Nat) : Bool :=
  bits / Nat.pow 2 (f.fractionBits + f.exponentBits) % 2 == 1

def isNaN (f : Format) (bits : Nat) : Bool :=
  f.exponent bits == f.maxExponent && f.fraction bits != 0

def isInfinite (f : Format) (bits : Nat) : Bool :=
  f.exponent bits == f.maxExponent && f.fraction bits == 0

def isZero (f : Format) (bits : Nat) : Bool :=
  f.exponent bits == 0 && f.fraction bits == 0

/-- Equality as numbers: nothing equals NaN, and the zeros of both signs are equal. -/
def same (f : Format) (a b : Nat) : Bool :=
  !f.isNaN a && !f.isNaN b && (a == b || (f.isZero a && f.isZero b))

end Format

/-- The positive number `m * 2^q` with the reals that round to it. -/
structure Binary where
  m : Nat
  q : Int
  /-- The gap to the number below is half the gap to the number above. -/
  narrowBelow : Bool

def Format.magnitude (f : Format) (bits : Nat) : Binary :=
  let e := f.exponent bits
  let fraction := f.fraction bits
  let least : Int := 2 - Nat.pow 2 (f.exponentBits - 1) - f.fractionBits
  if e == 0 then ⟨fraction, least, false⟩
  else ⟨Nat.pow 2 f.fractionBits + fraction, least + (e - 1), fraction == 0 && 1 < e⟩

def widen (bits : Nat) : Nat :=
  let sign := if Format.single.negative bits then Nat.pow 2 63 else 0
  let e := Format.single.exponent bits
  let fraction := Format.single.fraction bits
  if e == 255 then sign + 2047 * Nat.pow 2 52 + fraction * Nat.pow 2 29
  else if e != 0 then sign + (e + 896) * Nat.pow 2 52 + fraction * Nat.pow 2 29
  else if fraction == 0 then sign
  else
    let top := fraction.log2
    sign + (top + 874) * Nat.pow 2 52 + (fraction - Nat.pow 2 top) * Nat.pow 2 (52 - top)

end Didl.Decimal
