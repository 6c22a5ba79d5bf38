import Didl.Message

namespace Didl

inductive Scheme where
  | bool | unit | text | nat | int
  | nat8 | nat16 | nat32 | nat64
  | int8 | int16 | int32 | int64
  | float32 | float64
  | opt (inner : Scheme)
  | vec (inner : Scheme)
  deriving DecidableEq, Repr

namespace Scheme

abbrev Carrier : Scheme → Type
  | bool => Bool
  | unit => Unit
  | text => String
  | nat => Nat
  | int => Int
  | nat8 => UInt8
  | nat16 => UInt16
  | nat32 | float32 => UInt32
  | nat64 | float64 => UInt64
  | int8 => Int8
  | int16 => Int16
  | int32 => Int32
  | int64 => Int64
  | opt s => Option s.Carrier
  | vec s => List s.Carrier

def type : Scheme → Ty
  | bool => .prim .bool
  | unit => .prim .null
  | text => .prim .text
  | nat => .prim .nat
  | int => .prim .int
  | nat8 => .prim .nat8
  | nat16 => .prim .nat16
  | nat32 => .prim .nat32
  | nat64 => .prim .nat64
  | int8 => .prim .int8
  | int16 => .prim .int16
  | int32 => .prim .int32
  | int64 => .prim .int64
  | float32 => .prim .float32
  | float64 => .prim .float64
  | opt s => .composite (.opt s.type)
  | vec s => .composite (.vec s.type)

def toValue : (s : Scheme) → s.Carrier → Value
  | bool, b => .bool b
  | unit, _ => .null
  | text, s => .text s
  | nat, n => .nat n
  | int, i => .int i
  | nat8, n => .nat8 n
  | nat16, n => .nat16 n
  | nat32, n => .nat32 n
  | nat64, n => .nat64 n
  | int8, i => .int8 i
  | int16, i => .int16 i
  | int32, i => .int32 i
  | int64, i => .int64 i
  | float32, bits => .float32 bits
  | float64, bits => .float64 bits
  | opt s, o => .opt (o.map s.toValue)
  | vec s, xs => .vec (xs.map s.toValue)

/-- Takes a value for a value of the Lean type. A `vec` may also come as bytes. -/
def ofValue : (s : Scheme) → Value → Except Fault s.Carrier
  | bool, .bool b => .ok b
  | unit, .null => .ok ()
  | text, .text s => .ok s
  | nat, .nat n => .ok n
  | int, .int i => .ok i
  | nat8, .nat8 n => .ok n
  | nat16, .nat16 n => .ok n
  | nat32, .nat32 n => .ok n
  | nat64, .nat64 n => .ok n
  | int8, .int8 i => .ok i
  | int16, .int16 i => .ok i
  | int32, .int32 i => .ok i
  | int64, .int64 i => .ok i
  | float32, .float32 bits => .ok bits
  | float64, .float64 bits => .ok bits
  | opt _, .opt none => .ok none
  | opt s, .opt (some v) => do return some (← s.ofValue v)
  | vec s, .vec vs => vs.mapM s.ofValue
  | vec s, .blob bytes => bytes.mapM fun b => s.ofValue (.nat8 b)
  | s, v => .error (.mismatch s.type.text v.kind)

def encodeOne (s : Scheme) (x : s.Carrier) : Except Fault (List UInt8) :=
  Message.encode {} [s.type] [s.toValue x]

def decodeOne (s : Scheme) (bytes : List UInt8) : Option (Except Fault s.Carrier) :=
  (Message.decodeAs {} [s.type] bytes).map fun decoded => do
    match (← decoded).getLast? with
    | some v => s.ofValue v
    | none => .error (.mismatch "1 argument" "0 arguments")

end Scheme

end Didl
