import Didl.Type.Basic
import Didl.Decimal.Binary

namespace Didl

/-- A method of a service; the service may be withheld. -/
structure FuncRef where
  service : Option (List UInt8)
  method : String
  deriving DecidableEq

/-- A value does not hold its type: it is read and written against one. Fields and alternatives are
known by number, and floats are held by their bits, so that a value can be told from any other. -/
inductive Value where
  | null
  | bool (b : Bool)
  | nat (n : Nat)
  | int (i : Int)
  | nat8 (n : UInt8)
  | nat16 (n : UInt16)
  | nat32 (n : UInt32)
  | nat64 (n : UInt64)
  | int8 (i : Int8)
  | int16 (i : Int16)
  | int32 (i : Int32)
  | int64 (i : Int64)
  | float32 (bits : UInt32)
  | float64 (bits : UInt64)
  | text (s : String)
  | reserved
  /-- A reference that may be withheld. -/
  | principal (id : Option (List UInt8))
  | opt (inner : Option Value)
  | vec (items : List Value)
  /-- A `vec nat8` held as bytes. -/
  | blob (bytes : List UInt8)
  /-- Fields by ascending number. -/
  | record (fields : List (UInt32 × Value))
  | variant (id : UInt32) (inner : Value)
  | service (id : Option (List UInt8))
  | func (ref : Option FuncRef)
  /-- The payload of a type of no known meaning. -/
  | future (bytes : List UInt8)

instance : Inhabited Value := ⟨.null⟩

namespace Value

def kind : Value → String
  | null => "null" | bool _ => "bool" | nat _ => "nat" | int _ => "int"
  | nat8 _ => "nat8" | nat16 _ => "nat16" | nat32 _ => "nat32" | nat64 _ => "nat64"
  | int8 _ => "int8" | int16 _ => "int16" | int32 _ => "int32" | int64 _ => "int64"
  | float32 _ => "float32" | float64 _ => "float64"
  | text _ => "text" | reserved => "reserved" | principal _ => "principal"
  | opt _ => "opt" | vec _ => "vec" | blob _ => "blob"
  | record _ => "record" | variant .. => "variant"
  | service _ => "service" | func _ => "func" | future _ => "future"

def recordOf (fields : List (String × Value)) : Value :=
  record (Assoc.ofList (fields.map fun (name, v) => (labelId name, v)))

def tuple (values : List Value) : Value :=
  record (Assoc.ofList (values.zipIdx.map fun (v, i) => (UInt32.ofNat i, v)))

def variantOf (name : String) (v : Value) : Value := variant (labelId name) v

def length : Value → Nat
  | vec items => items.length
  | blob bytes => bytes.length
  | text s => s.utf8ByteSize
  | _ => 0

def isEmpty (v : Value) : Bool := v.length == 0

def asBool? : Value → Option Bool
  | bool b => some b
  | _ => none

def asText? : Value → Option String
  | text s => some s
  | _ => none

def asNat? : Value → Option Nat
  | nat n => some n
  | _ => none

def asInt? : Value → Option Int
  | int i => some i
  | _ => none

def items : Value → List Value
  | vec vs => vs
  | _ => []

def getId? (v : Value) (id : UInt32) : Option Value :=
  match v with
  | record fields => fields.lookup id
  | _ => none

def get? (v : Value) (name : String) : Option Value := v.getId? (labelId name)

def at? (v : Value) (index : Nat) : Option Value := v.items[index]?

def set (v : Value) (name : String) (field : Value) : Value :=
  match v with
  | record fields => record (Assoc.insert (labelId name) field fields)
  | v => v

def push (v : Value) (item : Value) : Value :=
  match v with
  | vec vs => vec (vs ++ [item])
  | v => v

mutual

/-- Whether two values are equal, floats compared as numbers. -/
def same : Value → Value → Bool
  | .null, .null => true
  | .bool a, .bool b => a == b
  | .nat a, .nat b => a == b
  | .int a, .int b => a == b
  | .nat8 a, .nat8 b => a == b
  | .nat16 a, .nat16 b => a == b
  | .nat32 a, .nat32 b => a == b
  | .nat64 a, .nat64 b => a == b
  | .int8 a, .int8 b => a == b
  | .int16 a, .int16 b => a == b
  | .int32 a, .int32 b => a == b
  | .int64 a, .int64 b => a == b
  | .float32 a, .float32 b => Decimal.Format.single.same a.toNat b.toNat
  | .float64 a, .float64 b => Decimal.Format.double.same a.toNat b.toNat
  | .text a, .text b => a == b
  | .reserved, .reserved => true
  | .principal a, .principal b => a == b
  | .opt none, .opt none => true
  | .opt (some a), .opt (some b) => same a b
  | .vec as, .vec bs => sameItems as bs
  | .blob a, .blob b => a == b
  | .record as, .record bs => sameFields as bs
  | .variant i a, .variant j b => i == j && same a b
  | .service a, .service b => a == b
  | .func a, .func b => a == b
  | .future a, .future b => a == b
  | _, _ => false

def sameItems : List Value → List Value → Bool
  | [], [] => true
  | a :: as, b :: bs => if same a b then sameItems as bs else false
  | _, _ => false

def sameFields : List (UInt32 × Value) → List (UInt32 × Value) → Bool
  | [], [] => true
  | (i, a) :: as, (j, b) :: bs => if i == j && same a b then sameFields as bs else false
  | _, _ => false

end

end Value

end Didl
