import Didl.Table.Basic
import Didl.Value.Basic
import Didl.Type.Json
import Didl.Message

namespace Didl

namespace Json

def ofNat (n : Nat) : Json :=
  if n < UInt64.size then .number n else .string (toString n)

def ofInt (i : Int) : Json :=
  if Int64.minValue.toInt ≤ i ∧ i ≤ Int64.maxValue.toInt then .number i else .string (toString i)

def ofBytes (bytes : List UInt8) : Json := .string (hex bytes)

def ofReference : Option (List UInt8) → Json
  | some id => ofBytes id
  | none => .null

def ofFunc : Option FuncRef → Json
  | some ref => .object [("service", ofReference ref.service), ("method", .string ref.method)]
  | none => .null

end Json

def Field.key {α : Type} (f : Field α) : String :=
  match f.name with
  | some name => name
  | none => toString f.id.toNat

namespace Value

/-- The JSON of a value whose type does not matter. -/
def plainJson? : Value → Option Json
  | .null | .reserved => some .null
  | .bool b => some (.bool b)
  | .nat n => some (.ofNat n)
  | .int i => some (.ofInt i)
  | .nat8 n => some (.number n.toNat)
  | .nat16 n => some (.number n.toNat)
  | .nat32 n => some (.number n.toNat)
  | .nat64 n => some (.number n.toNat)
  | .int8 i => some (.number i.toInt)
  | .int16 i => some (.number i.toInt)
  | .int32 i => some (.number i.toInt)
  | .int64 i => some (.number i.toInt)
  | .float32 bits => some (.float (UInt64.ofNat (Decimal.widen bits.toNat)))
  | .float64 bits => some (.float bits)
  | .text s => some (.string s)
  | .blob bytes | .future bytes => some (.ofBytes bytes)
  | .principal id | .service id => some (.ofReference id)
  | .func ref => some (.ofFunc ref)
  | _ => none

def jsonMembers (values : Assoc UInt32 (Ty → Except Fault Json)) :
    List (Field Ty) → Except Fault (List (String × Json))
  | [] => .ok []
  | f :: fs =>
    match values.lookup f.id with
    | none => jsonMembers values fs
    | some render => do
      let j ← render f.type
      let rest ← jsonMembers values fs
      .ok ((f.key, j) :: rest)

section
variable (table : Table)

mutual

def json : Value → Ty → Except Fault Json
  | .opt none, type => do
    match ← table.follow type with
    | .composite (.opt _) => .ok (.array [])
    | head => .error (mismatch head (.opt none))
  | .opt (some w), type => do
    match ← table.follow type with
    | .composite (.opt inner) => do
      let j ← json w inner
      .ok (.array [j])
    | head => .error (mismatch head (.opt (some w)))
  | .vec items, type => do
    match ← table.follow type with
    | .composite (.vec inner) => jsonItems inner [] items
    | head => .error (mismatch head (.vec items))
  | .record values, type => do
    match ← table.follow type with
    | .composite (.record fields) => do
      let members ← jsonMembers (renderers values) fields
      .ok (.object members)
    | head => .error (mismatch head (.record values))
  | .variant id w, type => do
    match ← table.follow type with
    | .composite (.variant fields) =>
      match findField? fields id with
      | some f => do
        let j ← json w f.type
        .ok (.object [(f.key, j)])
      | none => .error (.unknownTag id.toNat)
    | head => .error (mismatch head (.variant id w))
  | v, type => do
    let head ← table.follow type
    match plainJson? v with
    | some j => .ok j
    | none => .error (mismatch head v)

def jsonItems (inner : Ty) (done : List Json) : List Value → Except Fault Json
  | [] => .ok (.array done.reverse)
  | v :: vs =>
    match json v inner with
    | .ok j => jsonItems inner (j :: done) vs
    | .error e => .error e

def renderers : List (UInt32 × Value) → Assoc UInt32 (Ty → Except Fault Json)
  | [] => []
  | (id, v) :: fields => (id, json v) :: renderers fields

end

end

end Value

namespace Message

def toJson (table : Table) (args : List (Ty × Value)) : Except Fault Json := do
  let items ← args.mapM fun (type, v) => do
    let j ← v.json table type
    pure (Json.object [("type", .string type.text), ("value", j)])
  pure (.array items)

def decodeToJson (bytes : List UInt8) : Except Fault String := do
  let (table, args) ← decodeWithTable bytes
  pure (← toJson table args).pretty

/-- A message as the text of a JSON array, with the names that the expected types give. -/
def decodeToJsonAs (env : Table) (expected : List Ty) (bytes : List UInt8) :
    Option (Except Fault String) :=
  (decodeAs env expected bytes).map fun decoded => do
    let values ← decoded
    pure (← toJson env (expected.zip values)).pretty

end Message

end Didl
