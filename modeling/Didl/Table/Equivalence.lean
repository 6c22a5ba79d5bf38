import Didl.Table.Basic

namespace Didl

abbrev NamePairs : Type := List (String × String)

/-- The outcome of a comparison with the pairs met so far: none where the limit was reached. -/
abbrev Comparison : Type := Option (Except Fault (Bool × NamePairs))

namespace Comparison

def all (check : NamePairs → Ty → Ty → Comparison) :
    NamePairs → List (Bool × Ty × Ty) → Comparison
  | met, [] => some (.ok (true, met))
  | met, (agree, x, y) :: rest =>
    if agree then
      match check met x y with
      | some (.ok (true, met)) => all check met rest
      | outcome => outcome
    else some (.ok (false, met))

def heads (check : NamePairs → Ty → Ty → Comparison) (met : NamePairs) :
    Head → Head → Comparison
  | .prim p, .prim q => some (.ok (p == q, met))
  | .composite c, .composite d =>
    match c.zip d with
    | some pairs => all check met pairs
    | none => some (.ok (false, met))
  | _, _ => some (.ok (false, met))

def meet? (met : NamePairs) : Ty → Ty → Option NamePairs
  | .named x, .named y => if met.contains (x, y) then none else some ((x, y) :: met)
  | _, _ => some met

end Comparison

namespace Table

/-- Compares two types at most `limit` levels deep. A pair of names that was met before is taken to
agree. Where a name on one side keeps meeting a type without a name on the other no pair comes
again, and no limit is enough. -/
def compare (left right : Table) : Nat → NamePairs → Ty → Ty → Comparison
  | 0, _, _, _ => none
  | limit + 1, met, a, b =>
    match Comparison.meet? met a b with
    | none => some (.ok (true, met))
    | some met =>
      match left.follow a, right.follow b with
      | .error e, _ => some (.error e)
      | _, .error e => some (.error e)
      | .ok x, .ok y => Comparison.heads (compare left right limit) met x y

def nodes (t : Table) : Nat := t.entries.foldl (fun n c => n + (Ty.composite c).size) 0

/-- A depth that no finite comparison exceeds: below it some pair of places would come up twice
with no pair of names met in between. -/
def comparisonLimit (left right : Table) (a b : Ty) : Nat :=
  (a.size + left.nodes) * (b.size + right.nodes) * (left.labels.length * right.labels.length + 1) + 1

/-- Whether two types agree: a verdict, a fault, or none if the comparison has no end. -/
def equivalent (left : Table) (a : Ty) (right : Table) (b : Ty) : Option (Except Fault Bool) :=
  match compare left right (comparisonLimit left right a b) [] a b with
  | some (.ok (verdict, _)) => some (.ok verdict)
  | some (.error e) => some (.error e)
  | none => none

end Table

end Didl
