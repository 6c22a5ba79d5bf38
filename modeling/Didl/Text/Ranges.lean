namespace Didl.Text

abbrev Ranges : Type := List (Nat × Nat)

def Ranges.contains : Ranges → Char → Bool
  | [], _ => false
  | (first, last) :: ranges, c =>
    if c.toNat < first then false
    else if c.toNat ≤ last then true
    else contains ranges c

end Didl.Text
