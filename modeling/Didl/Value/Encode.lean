import Didl.Table.Basic
import Didl.Value.Basic
import Didl.Writer

namespace Didl

def referenceBytes : Option (List UInt8) → List UInt8
  | some id => 1 :: Writer.blob id
  | none => [0]

def referenceSize : Option (List UInt8) → Nat
  | some id => 1 + Writer.sizeBlob id.length
  | none => 1

def Prim.bytes? : Prim → Value → Option (List UInt8)
  | .null, .null => some []
  | .bool, .bool b => some (Writer.flag b)
  | .nat, .nat n => some (Varint.ofNat n)
  | .int, .int i => some (Varint.ofInt i)
  | .nat8, .nat8 n => some [n]
  | .nat16, .nat16 n => some (Writer.littleEndian 2 n.toNat)
  | .nat32, .nat32 n => some (Writer.littleEndian 4 n.toNat)
  | .nat64, .nat64 n => some (Writer.littleEndian 8 n.toNat)
  | .int8, .int8 i => some [i.toUInt8]
  | .int16, .int16 i => some (Writer.littleEndian 2 i.toUInt16.toNat)
  | .int32, .int32 i => some (Writer.littleEndian 4 i.toUInt32.toNat)
  | .int64, .int64 i => some (Writer.littleEndian 8 i.toUInt64.toNat)
  | .float32, .float32 bits => some (Writer.littleEndian 4 bits.toNat)
  | .float64, .float64 bits => some (Writer.littleEndian 8 bits.toNat)
  | .text, .text s => some (Writer.text s)
  | .principal, .principal id => some (referenceBytes id)
  | _, _ => none

def Prim.size? : Prim → Value → Option Nat
  | .null, .null => some 0
  | .bool, .bool _ => some 1
  | .nat, .nat n => some (Varint.sizeNat n)
  | .int, .int i => some (Varint.sizeInt i)
  | .nat8, .nat8 _ | .int8, .int8 _ => some 1
  | .nat16, .nat16 _ | .int16, .int16 _ => some 2
  | .nat32, .nat32 _ | .int32, .int32 _ | .float32, .float32 _ => some 4
  | .nat64, .nat64 _ | .int64, .int64 _ | .float64, .float64 _ => some 8
  | .text, .text s => some (Writer.sizeBlob s.utf8ByteSize)
  | .principal, .principal id => some (referenceSize id)
  | _, _ => none

def funcBytes : Option FuncRef → List UInt8
  | some ref => 1 :: (referenceBytes ref.service ++ Writer.text ref.method)
  | none => [0]

def funcSize : Option FuncRef → Nat
  | some ref => 1 + referenceSize ref.service + Writer.sizeBlob ref.method.utf8ByteSize
  | none => 1

def recordFields {α : Type} (fields : List (Field Ty)) (values : Assoc UInt32 α) :
    Except Fault (List (Field Ty)) :=
  match values.find? fun (id, _) => !fields.any (·.id == id) with
  | some (extra, _) =>
    .error (.mismatch (Ty.composite (.record fields)).text s!"record with extra field {extra}")
  | none => .ok (sortBy (·.id) fields)

def findField? (fields : List (Field Ty)) (id : UInt32) : Option (Field Ty) :=
  fields.find? (·.id == id)

namespace Value

def mismatch (head : Head) (v : Value) : Fault := .mismatch head.type.text v.kind

def unknownAlternative (head : Head) (id : UInt32) : Fault :=
  .mismatch head.type.text s!"variant tag {id}"

def eachField {σ : Type} (values : Assoc UInt32 (Ty → Step σ Unit)) :
    List (Field Ty) → Step σ Unit
  | [] => pure ()
  | f :: fs => do
    match values.lookup f.id with
    | none => Step.fail (.missingField f.id)
    | some item => do
      item f.type
      eachField values fs

/-- Goes by what a type looks through to. Nothing is written as `reserved`, and nothing can be
written as `empty`. -/
def dispatch {σ : Type} (table : Table) (type : Ty) (v : Value)
    (prim : Prim → Option (Step σ Unit)) (composite : Composite Ty → Step σ Unit) :
    Step σ Unit := do
  match ← Step.ofExcept (table.follow type) with
  | .prim .reserved => pure ()
  | .prim .empty => Step.fail .emptyValue
  | .prim p =>
    match prim p with
    | some step => step
    | none => Step.fail (mismatch (.prim p) v)
  | .composite c => composite c

section
variable (table : Table)

mutual

def write : Value → Ty → Writer
  | .opt (some w), type =>
    dispatch table type (.opt (some w)) (fun _ => none) fun
      | .opt inner => do
        Writer.byte 1
        write w inner
      | c => Step.fail (mismatch (.composite c) (.opt (some w)))
  | .vec items, type =>
    dispatch table type (.vec items) (fun _ => none) fun
      | .vec inner => do
        Writer.bytes (Varint.ofNat items.length)
        writeItems items inner
      | c => Step.fail (mismatch (.composite c) (.vec items))
  | .record values, type =>
    dispatch table type (.record values) (fun _ => none) fun
      | .record fields => do
        let fields ← Step.ofExcept (recordFields fields values)
        eachField (writers values) fields
      | c => Step.fail (mismatch (.composite c) (.record values))
  | .variant id w, type =>
    dispatch table type (.variant id w) (fun _ => none) fun
      | .variant fields =>
        match findField? fields id with
        | some f => do
          Writer.bytes (Varint.ofNat id.toNat)
          write w f.type
        | none => Step.fail (unknownAlternative (.composite (.variant fields)) id)
      | c => Step.fail (mismatch (.composite c) (.variant id w))
  | v, type =>
    dispatch table type v (fun p => (p.bytes? v).map Writer.bytes) fun c =>
      match c, v with
      | .opt _, .opt none => Writer.byte 0
      | .vec inner, .blob bytes => do
        if (← Step.ofExcept (table.follow inner)).isPrim .nat8 then Writer.bytes (Writer.blob bytes)
        else Step.fail (mismatch (.composite c) v)
      | .func .., .func ref => Writer.bytes (funcBytes ref)
      | .service _, .service id => Writer.bytes (referenceBytes id)
      | .future .., .future bytes => Writer.bytes (Writer.blob bytes)
      | _, _ => Step.fail (mismatch (.composite c) v)

def writeItems : List Value → Ty → Writer
  | [], _ => pure ()
  | v :: vs, type => fun out =>
    match write v type out with
    | (.ok (), out) => writeItems vs type out
    | (.error e, out) => (.error e, out)

def writers : List (UInt32 × Value) → Assoc UInt32 (Ty → Writer)
  | [] => []
  | (id, v) :: fields => (id, write v) :: writers fields

end

def more (n : Nat) : Step Nat Unit := fun sum => (.ok (), sum + n)

mutual

def addSize : Value → Ty → Step Nat Unit
  | .opt (some w), type =>
    dispatch table type (.opt (some w)) (fun _ => none) fun
      | .opt inner => do
        more 1
        addSize w inner
      | c => Step.fail (mismatch (.composite c) (.opt (some w)))
  | .vec items, type =>
    dispatch table type (.vec items) (fun _ => none) fun
      | .vec inner => do
        more (Varint.sizeNat items.length)
        addSizes items inner
      | c => Step.fail (mismatch (.composite c) (.vec items))
  | .record values, type =>
    dispatch table type (.record values) (fun _ => none) fun
      | .record fields => do
        let fields ← Step.ofExcept (recordFields fields values)
        eachField (sizers values) fields
      | c => Step.fail (mismatch (.composite c) (.record values))
  | .variant id w, type =>
    dispatch table type (.variant id w) (fun _ => none) fun
      | .variant fields =>
        match findField? fields id with
        | some f => do
          more (Varint.sizeNat id.toNat)
          addSize w f.type
        | none => Step.fail (unknownAlternative (.composite (.variant fields)) id)
      | c => Step.fail (mismatch (.composite c) (.variant id w))
  | v, type =>
    dispatch table type v (fun p => (p.size? v).map more) fun c =>
      match c, v with
      | .opt _, .opt none => more 1
      | .vec inner, .blob bytes => do
        if (← Step.ofExcept (table.follow inner)).isPrim .nat8 then
          more (Writer.sizeBlob bytes.length)
        else Step.fail (mismatch (.composite c) v)
      | .func .., .func ref => more (funcSize ref)
      | .service _, .service id => more (referenceSize id)
      | .future .., .future bytes => more (Writer.sizeBlob bytes.length)
      | _, _ => Step.fail (mismatch (.composite c) v)

def addSizes : List Value → Ty → Step Nat Unit
  | [], _ => pure ()
  | v :: vs, type => fun sum =>
    match addSize v type sum with
    | (.ok (), sum) => addSizes vs type sum
    | (.error e, sum) => (.error e, sum)

def sizers : List (UInt32 × Value) → Assoc UInt32 (Ty → Step Nat Unit)
  | [] => []
  | (id, v) :: fields => (id, addSize v) :: sizers fields

end

def size (v : Value) (type : Ty) : Except Fault Nat :=
  match addSize table v type 0 with
  | (.ok (), sum) => .ok sum
  | (.error e, _) => .error e

/-- The bytes of a value as a type. A value that has no size there has no bytes. -/
def encode (v : Value) (type : Ty) : Except Fault (List UInt8) := do
  let _ ← v.size table type
  match write table v type #[] with
  | (.ok (), bytes) => .ok bytes.toList
  | (.error e, _) => .error e

end

end Value

end Didl
