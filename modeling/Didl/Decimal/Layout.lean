import Didl.Decimal.Shortest

namespace Didl.Decimal

structure Layout where
  tie : Tie
  /-- Exponents of the leading digit that are written out in place; none means all. -/
  plain : Option (Int × Int)
  /-- Whole numbers end in `.0`. -/
  pointZero : Bool
  nan : String
  infinity : String

namespace Layout

def zeros (count : Nat) : List Char := List.replicate count '0'

def positional (style : Layout) (digits : List Char) (top : Int) : List Char :=
  let whole := (top + 1).toNat
  if top < 0 then '0' :: '.' :: zeros (-top - 1).toNat ++ digits
  else if digits.length ≤ whole then
    digits ++ zeros (whole - digits.length) ++ (if style.pointZero then ['.', '0'] else [])
  else digits.take whole ++ '.' :: digits.drop whole

def scientific (digits : List Char) (top : Int) : List Char :=
  digits.take 1 ++ (if digits.length ≤ 1 then [] else '.' :: digits.drop 1) ++
    'e' :: (if top < 0 then '-' else '+') :: Nat.toDigits 10 top.natAbs

def place (style : Layout) (d : Dec) : List Char :=
  let digits := Nat.toDigits 10 d.digits
  let top := d.exp + digits.length - 1
  match style.plain with
  | some (first, last) =>
    if first ≤ top ∧ top ≤ last then style.positional digits top else scientific digits top
  | none => style.positional digits top

/-- The text of a float of given bits. -/
def write (style : Layout) (f : Format) (bits : Nat) : String :=
  if f.isNaN bits then style.nan
  else
    let text :=
      if f.isInfinite bits then style.infinity
      else if f.isZero bits then String.ofList (style.place ⟨0, 0⟩)
      else String.ofList (style.place ((f.magnitude bits).shortest style.tie))
    if f.negative bits then "-" ++ text else text

end Layout

end Didl.Decimal
