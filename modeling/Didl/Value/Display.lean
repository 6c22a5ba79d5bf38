import Didl.Value.Basic
import Didl.Decimal.Layout
import Didl.Text.Quoted

namespace Didl.Value

def floatLayout : Decimal.Layout where
  tie := .up
  plain := none
  pointZero := false
  nan := "NaN"
  infinity := "inf"

def blobText (bytes : List UInt8) : String :=
  bytes.foldl (fun out b => out ++ "\\" ++ hexByte b) "blob \"" ++ "\""

def referenceText (word : String) : Option (List UInt8) → String
  | some id => word ++ " " ++ blobText id
  | none => "opaque"

def serviceText : Option (List UInt8) → String
  | some id => "Some([" ++ ", ".intercalate (id.map fun b => toString b.toNat) ++ "])"
  | none => "None"

def funcText : Option FuncRef → String
  | some ref => "func " ++ serviceText ref.service ++ "." ++ ref.method
  | none => "opaque"

mutual

def appendText (out : String) : Value → String
  | .null | .opt none => out ++ "null"
  | .bool b => out ++ (if b then "true" else "false")
  | .nat n => out ++ toString n
  | .int i => out ++ toString i
  | .nat8 n => out ++ toString n.toNat ++ " : nat8"
  | .nat16 n => out ++ toString n.toNat ++ " : nat16"
  | .nat32 n => out ++ toString n.toNat ++ " : nat32"
  | .nat64 n => out ++ toString n.toNat ++ " : nat64"
  | .int8 i => out ++ toString i.toInt ++ " : int8"
  | .int16 i => out ++ toString i.toInt ++ " : int16"
  | .int32 i => out ++ toString i.toInt ++ " : int32"
  | .int64 i => out ++ toString i.toInt ++ " : int64"
  | .float32 bits => out ++ floatLayout.write .single bits.toNat ++ " : float32"
  | .float64 bits => out ++ floatLayout.write .double bits.toNat ++ " : float64"
  | .text s => out ++ Text.quoteValue s
  | .reserved => out ++ "reserved"
  | .principal id => out ++ referenceText "principal" id
  | .opt (some inner) => appendText (out ++ "opt ") inner
  | .vec items => appendItems (out ++ "vec \x7b") items ++ " \x7d"
  | .blob bytes | .future bytes => out ++ blobText bytes
  | .record fields => appendFields (out ++ "record \x7b") fields ++ " \x7d"
  | .variant id inner =>
    appendText (out ++ "variant \x7b " ++ toString id.toNat ++ " = ") inner ++ " \x7d"
  | .service id => out ++ referenceText "service" id
  | .func ref => out ++ funcText ref

def appendItems (out : String) : List Value → String
  | [] => out
  | v :: vs => appendItems (appendText (out ++ " ") v ++ ";") vs

def appendFields (out : String) : List (UInt32 × Value) → String
  | [] => out
  | (id, v) :: fields =>
    appendFields (appendText (out ++ " " ++ toString id.toNat ++ " = ") v ++ ";") fields

end

def display (v : Value) : String := appendText "" v

end Didl.Value
