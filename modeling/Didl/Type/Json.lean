import Didl.Type.Basic
import Didl.Json

namespace Didl

def Prim.title : Prim → String
  | .null => "Null" | .bool => "Bool" | .nat => "Nat" | .int => "Int"
  | .nat8 => "Nat8" | .nat16 => "Nat16" | .nat32 => "Nat32" | .nat64 => "Nat64"
  | .int8 => "Int8" | .int16 => "Int16" | .int32 => "Int32" | .int64 => "Int64"
  | .float32 => "Float32" | .float64 => "Float64"
  | .text => "Text" | .reserved => "Reserved" | .empty => "Empty" | .principal => "Principal"

def Mode.title : Mode → String
  | .query => "Query" | .oneway => "Oneway" | .compositeQuery => "CompositeQuery"

namespace Json

def optional (name : Option String) : Json :=
  match name with
  | some s => .string s
  | none => .null

def ofField (f : Field (Ty × Json)) : Json :=
  .fields [("id", .number f.id.toNat), ("name", optional f.name), ("ty", f.type.2)]

def ofMethod (m : Method (Ty × Json)) : Json :=
  .fields [("name", .string m.name), ("ty", m.type.2)]

def ofTypes (ts : List (Ty × Json)) : Json := .array (ts.map Prod.snd)

def ofSignature (args results : List (Ty × Json)) (modes : List Mode) : Json :=
  .fields [("args", ofTypes args), ("rets", ofTypes results),
    ("modes", .array (modes.map fun m => .string m.title))]

def ofComposite : Composite (Ty × Json) → Json
  | .opt (_, inner) => .fields [("Opt", inner)]
  | .vec (_, inner) => .fields [("Vec", inner)]
  | .record fs => .fields [("Record", .array (fs.map ofField))]
  | .variant fs => .fields [("Variant", .array (fs.map ofField))]
  | .func args results modes => .fields [("Func", ofSignature args results modes)]
  | .service ms => .fields [("Service", .array (ms.map ofMethod))]
  | .future opcode payload =>
    .fields [("Future", .fields [("opcode", .number opcode.toInt),
      ("payload", .array (payload.map fun b => .number b.toNat))])]

end Json

def Ty.json : Ty → Json :=
  Ty.fold (fun p => .string p.title) (fun name => .fields [("Id", .string name)]) Json.ofComposite

def typesJson (types : List Ty) : String := (Json.array (types.map Ty.json)).pretty

end Didl
