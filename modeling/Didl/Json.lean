import Didl.Decimal.Layout
import Didl.Text.Quoted
import Didl.Sorted

namespace Didl

inductive Json where
  | null
  | bool (b : Bool)
  | number (i : Int)
  /-- A double by its bits. -/
  | float (bits : UInt64)
  | string (s : String)
  | array (items : List Json)
  | fields (members : List (String × Json))

namespace Json

/-- An object with its keys in order; of two members with one key the later stays. -/
def object (members : List (String × Json)) : Json := fields (Assoc.ofList members)

/-- Floats have the fewest digits that read back. An exponent takes over below `10^-5` and from
`10^16` on, and what is no finite number is written as null. -/
def floatLayout : Decimal.Layout where
  tie := .even
  plain := some (-5, 15)
  pointZero := true
  nan := "null"
  infinity := "null"

def floatText (bits : UInt64) : String :=
  if Decimal.Format.double.isInfinite bits.toNat || Decimal.Format.double.isNaN bits.toNat then "null"
  else floatLayout.write .double bits.toNat

mutual

def appendCompact (out : String) : Json → String
  | .null => out ++ "null"
  | .bool b => out ++ (if b then "true" else "false")
  | .number i => out ++ toString i
  | .float bits => out ++ floatText bits
  | .string s => out ++ Text.quote s
  | .array [] => out ++ "[]"
  | .array (item :: items) => appendItems (appendCompact (out ++ "[") item) items ++ "]"
  | .fields [] => out ++ "\x7b\x7d"
  | .fields ((key, v) :: members) =>
    appendMembers (appendCompact (out ++ "\x7b" ++ Text.quote key ++ ":") v) members ++ "\x7d"

def appendItems (out : String) : List Json → String
  | [] => out
  | item :: items => appendItems (appendCompact (out ++ ",") item) items

def appendMembers (out : String) : List (String × Json) → String
  | [] => out
  | (key, v) :: members =>
    appendMembers (appendCompact (out ++ "," ++ Text.quote key ++ ":") v) members

end

def compact (j : Json) : String := appendCompact "" j

def newLine (level : Nat) : String := "\n" ++ String.ofList (List.replicate (2 * level) ' ')

mutual

def appendPretty (level : Nat) (out : String) : Json → String
  | .array (item :: items) =>
    appendPrettyItems level (appendPretty (level + 1) (out ++ "[" ++ newLine (level + 1)) item) items
      ++ newLine level ++ "]"
  | .fields ((key, v) :: members) =>
    appendPrettyMembers level
      (appendPretty (level + 1)
        (out ++ "\x7b" ++ newLine (level + 1) ++ Text.quote key ++ ": ") v) members
      ++ newLine level ++ "\x7d"
  | leaf => appendCompact out leaf

def appendPrettyItems (level : Nat) (out : String) : List Json → String
  | [] => out
  | item :: items =>
    appendPrettyItems level (appendPretty (level + 1) (out ++ "," ++ newLine (level + 1)) item) items

def appendPrettyMembers (level : Nat) (out : String) : List (String × Json) → String
  | [] => out
  | (key, v) :: members =>
    appendPrettyMembers level
      (appendPretty (level + 1) (out ++ "," ++ newLine (level + 1) ++ Text.quote key ++ ": ") v)
      members

end

def pretty (j : Json) : String := appendPretty 0 "" j

end Json

end Didl
