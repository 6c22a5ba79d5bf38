import Didl.Decimal.Binary

namespace Didl.Decimal

structure Dec where
  digits : Nat
  exp : Int
  deriving DecidableEq, Repr

inductive Tie where
  | even
  | up
  deriving DecidableEq, Repr

def compareScaled (a : Nat) (i : Int) (n : Nat) (j : Int) : Ordering :=
  compare (a * Nat.pow 10 i.toNat * Nat.pow 2 (-j).toNat)
    (n * Nat.pow 2 j.toNat * Nat.pow 10 (-i).toNat)

namespace Binary

/-- Whether a decimal rounds to this number: it lies between the midpoints to the neighbours,
which belong to the number if `m` is even. -/
def readsBack (x : Binary) (d : Dec) : Bool :=
  let low := compareScaled d.digits d.exp (4 * x.m - (if x.narrowBelow then 1 else 2)) (x.q - 2)
  let high := compareScaled d.digits d.exp (4 * x.m + 2) (x.q - 2)
  let even := x.m % 2 == 0
  (low == .gt || (even && low == .eq)) && (high == .lt || (even && high == .eq))

def floorSteps (x : Binary) (i : Int) : Nat :=
  x.m * Nat.pow 2 x.q.toNat * Nat.pow 10 (-i).toNat / (Nat.pow 2 (-x.q).toNat * Nat.pow 10 i.toNat)

def scaleFrom (x : Binary) : Nat → Int → Int
  | 0, k => k
  | fuel + 1, k => if compareScaled 1 k x.m x.q == .gt then k else scaleFrom x fuel (k + 1)

def scale (x : Binary) : Int :=
  let top := (x.m.log2 : Int) + x.q
  scaleFrom x 4 (top * 30103 / 100000 - 1)

def onGrid? (x : Binary) (tie : Tie) (i : Int) : Option Dec :=
  let below : Dec := ⟨x.floorSteps i, i⟩
  let above : Dec := ⟨x.floorSteps i + 1, i⟩
  match x.readsBack below, x.readsBack above with
  | true, false => some below
  | false, true => some above
  | false, false => none
  | true, true =>
    match compareScaled (2 * below.digits + 1) i x.m (x.q + 1), tie with
    | .gt, _ => some below
    | .lt, _ => some above
    | .eq, .up => some above
    | .eq, .even => if below.digits % 2 == 0 then some below else some above

def search (x : Binary) (tie : Tie) (k : Int) : Nat → Nat → Option Dec
  | 0, _ => none
  | fuel + 1, n =>
    match x.onGrid? tie (k - n) with
    | some d => some d
    | none => search x tie k fuel (n + 1)

end Binary

def Dec.trim : Nat → Dec → Dec
  | 0, d => d
  | fuel + 1, d =>
    if d.digits != 0 && d.digits % 10 == 0 then Dec.trim fuel ⟨d.digits / 10, d.exp + 1⟩ else d

/-- The fewest digits that round to a positive number. Seventeen are enough for the widest
format; the number's exact value stands in should they not be. -/
def Binary.shortest (x : Binary) (tie : Tie) : Dec :=
  let found := x.search tie x.scale 17 1
  (found.getD ⟨x.m * Nat.pow 2 x.q.toNat * Nat.pow 5 (-x.q).toNat, min 0 x.q⟩).trim 18

end Didl.Decimal
