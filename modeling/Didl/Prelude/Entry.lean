import Didl.Table.Basic
import Didl.Reader
import Didl.Writer

namespace Didl

/-- An entry whose members are codes. -/
abbrev Entry : Type := Composite Int

namespace Entry

def optOpcode : Int := -18
def vecOpcode : Int := -19
def recordOpcode : Int := -20
def variantOpcode : Int := -21
def funcOpcode : Int := -22
def serviceOpcode : Int := -23

def listBytes {α : Type} (item : α → List UInt8) (items : List α) : List UInt8 :=
  Varint.ofNat items.length ++ items.flatMap item

def fieldBytes (f : Field Int) : List UInt8 := Varint.ofNat f.id.toNat ++ Varint.ofInt f.type

def methodBytes (m : Method Int) : List UInt8 := Writer.text m.name ++ Varint.ofInt m.type

def bytes : Entry → List UInt8
  | .opt code => Varint.ofInt optOpcode ++ Varint.ofInt code
  | .vec code => Varint.ofInt vecOpcode ++ Varint.ofInt code
  | .record fs => Varint.ofInt recordOpcode ++ listBytes fieldBytes fs
  | .variant fs => Varint.ofInt variantOpcode ++ listBytes fieldBytes fs
  | .func args results modes =>
    Varint.ofInt funcOpcode ++ listBytes Varint.ofInt args ++ listBytes Varint.ofInt results ++
      listBytes (fun m => [m.byte]) modes
  | .service ms => Varint.ofInt serviceOpcode ++ listBytes methodBytes ms
  | .future opcode payload => Varint.ofInt opcode.toInt ++ Writer.blob payload

def readCode : Reader Int := do pure (← Reader.varInt64).toInt

def readCodes : Reader (List Int) := do Step.times (← Reader.length) readCode

def readFieldsAfter : Nat → List (Field Int) → Reader (List (Field Int))
  | 0, done => pure done.reverse
  | count + 1, done => do
    let id := (← Reader.varUInt64).toNat
    if id < 4294967296 then
      let id := UInt32.ofNat id
      match done with
      | last :: _ =>
        if id ≤ last.id then Step.fail (.badTable (.fieldOutOfOrder id))
        else readFieldsAfter count (⟨id, none, ← readCode⟩ :: done)
      | [] => readFieldsAfter count [⟨id, none, ← readCode⟩]
    else Step.fail (.badTable .fieldIdTooWide)

def readFields : Reader (List (Field Int)) := do readFieldsAfter (← Reader.length) []

def readMode : Reader Mode := do
  let b ← Reader.byte
  match Mode.ofByte? b with
  | some m => pure m
  | none => Step.fail (.badTable (.unknownMode b))

def readMethodsAfter : Nat → List (Method Int) → Reader (List (Method Int))
  | 0, done => pure done.reverse
  | count + 1, done => do
    let name ← Reader.text
    match done with
    | last :: _ =>
      if name ≤ last.name then Step.fail (.badTable (.methodOutOfOrder name))
      else readMethodsAfter count (⟨name, ← readCode⟩ :: done)
    | [] => readMethodsAfter count [⟨name, ← readCode⟩]

def readMethods : Reader (List (Method Int)) := do readMethodsAfter (← Reader.length) []

def read : Reader Entry := do
  let opcode ← Reader.varInt64
  let code := opcode.toInt
  if code = optOpcode then pure (.opt (← readCode))
  else if code = vecOpcode then pure (.vec (← readCode))
  else if code = recordOpcode then pure (.record (← readFields))
  else if code = variantOpcode then pure (.variant (← readFields))
  else if code = funcOpcode then
    let args ← readCodes
    let results ← readCodes
    pure (.func args results (← Step.times (← Reader.length) readMode))
  else if code = serviceOpcode then pure (.service (← readMethods))
  else if 0 ≤ code ∨ (Prim.ofOpcode? code).isSome then
    Step.fail (.badTable (.notAnOpcode code))
  else pure (.future opcode (← Reader.blob))

def knownCode (count : Nat) (code : Int) : Bool :=
  if code < 0 then (Prim.ofOpcode? code).isSome else code < count

def checkCodes (count : Nat) (codes : List Int) : Except Fault Unit :=
  match codes.find? (!knownCode count ·) with
  | some code => .error (.unknownType code)
  | none => .ok ()

/-- Whether a code is the index of an entry that may stand for a function. -/
def isFunction (entries : Array Entry) (code : Int) : Bool :=
  if code < 0 then false
  else match entries[code.toNat]? with
    | some (.func ..) | some (.future ..) => true
    | _ => false

def methods : Entry → List (Method Int)
  | .service ms => ms
  | _ => []

def checkMethods (entries : Array Entry) : Except Fault Unit :=
  match (entries.toList.flatMap methods).find? (!isFunction entries ·.type) with
  | some m => .error (.badTable (.methodNotFunction m.name))
  | none => .ok ()

end Entry

namespace Table

def toEntry (t : Table) (c : Composite Ty) : Except Fault Entry := c.canonical.mapM t.codeOf

def entryBytes (t : Table) : Ty → Except Fault (List UInt8)
  | .composite c => do pure (← t.toEntry c).bytes
  | type => .error (.badTable (.notAnEntry type.text))

end Table

end Didl
