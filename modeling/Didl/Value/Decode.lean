import Didl.Table.Basic
import Didl.Value.Encode
import Didl.Reader

namespace Didl

def readReference : Reader (Option (List UInt8)) := do
  if ← Reader.presence then return some (← Reader.blob) else return none

def readFunc : Reader (Option FuncRef) := do
  if ← Reader.presence then
    let service ← readReference
    return some ⟨service, ← Reader.text⟩
  else return none

def Prim.reader : Prim → Reader Value
  | .null => pure .null
  | .reserved => pure .reserved
  | .empty => Step.fail .emptyValue
  | .bool => do return .bool (← Reader.bool)
  | .nat => do return .nat (← Reader.nat)
  | .int => do return .int (← Reader.int)
  | .nat8 => do return .nat8 (← Reader.byte)
  | .nat16 => do return .nat16 (← Reader.uint16)
  | .nat32 => do return .nat32 (← Reader.uint32)
  | .nat64 => do return .nat64 (← Reader.uint64)
  | .int8 => do return .int8 (← Reader.int8)
  | .int16 => do return .int16 (← Reader.int16)
  | .int32 => do return .int32 (← Reader.int32)
  | .int64 => do return .int64 (← Reader.int64)
  | .float32 => do return .float32 (← Reader.uint32)
  | .float64 => do return .float64 (← Reader.uint64)
  | .text => do return .text (← Reader.text)
  | .principal => do return .principal (← readReference)

namespace Table

/-- Whether every value of a type takes no bytes, as far as `limit` levels tell. -/
def zeroSized (t : Table) : Nat → Ty → Except Fault Bool
  | 0, _ => .ok false
  | limit + 1, type => do
    match ← t.follow type with
    | .prim .null | .prim .reserved => .ok true
    | .composite (.record fields) => allFields (zeroSized t limit) fields
    | _ => .ok false
where
  /-- Asks each field in turn, until one says no. -/
  allFields (ask : Ty → Except Fault Bool) : List (Field Ty) → Except Fault Bool
    | [] => .ok true
    | f :: fs => do if ← ask f.type then allFields ask fs else .ok false

end Table

namespace Value

/-- Reads a value with what is left of the allowance, and gives what it leaves. -/
abbrev Decode (α : Type) : Type := Nat → Reader (α × Nat)

def readItems (item : Decode Value) : Nat → List Value → Decode (List Value)
  | 0, done, allowance => pure (done.reverse, allowance)
  | count + 1, done, allowance => fun bytes =>
    match item allowance bytes with
    | (.ok (v, allowance), bytes) => readItems item count (v :: done) allowance bytes
    | (.error e, bytes) => (.error e, bytes)

def readFields (read : Ty → Decode Value) : List (Field Ty) → Decode (List (UInt32 × Value))
  | [], allowance => pure ([], allowance)
  | f :: fs, allowance => do
    let (v, allowance) ← read f.type allowance
    let (vs, allowance) ← readFields read fs allowance
    pure ((f.id, v) :: vs, allowance)

/-- Takes the elements of a `vec` out of the allowance if they take no input; otherwise each takes
a byte at least. -/
def charge (zeroSized : Bool) (count allowance : Nat) : Reader Nat := do
  if zeroSized then
    if count ≤ allowance then pure (allowance - count) else Step.fail .tooManyElements
  else if ← Reader.hasLeft count then pure allowance
  else Step.fail .endOfInput

def read (table : Table) : Nat → Ty → Decode Value
  | 0, _, _ => Step.fail .tooDeep
  | limit + 1, type, allowance => do
    match ← Step.ofExcept (table.follow type) with
    | .prim p => return (← p.reader, allowance)
    | .composite (.opt inner) =>
      if ← Reader.presence then
        let (v, allowance) ← read table limit inner allowance
        return (.opt (some v), allowance)
      else return (.opt none, allowance)
    | .composite (.vec inner) =>
      if (← Step.ofExcept (table.follow inner)).isPrim .nat8 then
        return (.blob (← Reader.blob), allowance)
      else
        let count := (← Reader.varUInt64).toNat
        let zeroSized ← Step.ofExcept (table.zeroSized (maxDepth + 1) inner)
        let allowance ← charge zeroSized count allowance
        let (vs, allowance) ← readItems (read table limit inner) count [] allowance
        return (.vec vs, allowance)
    | .composite (.record fields) =>
      let (vs, allowance) ← readFields (read table limit) (sortBy (·.id) fields) allowance
      return (.record (Assoc.ofList vs), allowance)
    | .composite (.variant fields) =>
      let tag := (← Reader.varUInt64).toNat
      match fields.find? (·.id.toNat == tag) with
      | none => Step.fail (.unknownTag tag)
      | some f =>
        let (v, allowance) ← read table limit f.type allowance
        return (.variant f.id v, allowance)
    | .composite (.func ..) => return (.func (← readFunc), allowance)
    | .composite (.service _) => return (.service (← readReference), allowance)
    | .composite (.future ..) => return (.future (← Reader.blob), allowance)

def reader (table : Table) (type : Ty) : Reader Value := do
  let (v, _) ← read table (maxDepth + 1) type maxZeroSized
  pure v

def decode (table : Table) (type : Ty) (bytes : List UInt8) : Except Fault Value :=
  match reader table type bytes with
  | (.ok v, []) => .ok v
  | (.ok _, rest) => .error (.trailingBytes rest.length)
  | (.error e, _) => .error e

end Value

end Didl
