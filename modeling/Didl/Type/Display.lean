import Didl.Type.Basic

namespace Didl

def joined (separator : String) (texts : List String) : String :=
  separator.intercalate texts

/-- A type as it stands alone and as it stands behind the name of a method, where a function is
written without its keyword. -/
structure TypeText where
  alone : String
  ofMethod : String

namespace TypeText

def plain (text : String) : TypeText := ⟨text, text⟩

/-- A field as its name, or its number where it has none, and the text of its type. In a variant
the type `null` goes without saying. -/
def field (bareNull : Bool) (f : Field (Ty × TypeText)) : String :=
  let label := match f.name with
    | some name => name
    | none => toString f.id.toNat
  match bareNull, f.type with
  | true, (.prim .null, _) => label
  | _, (_, type) => label ++ ": " ++ type.alone

def fields (keyword : String) (bareNull : Bool) (fs : List (Field (Ty × TypeText))) : TypeText :=
  if fs.isEmpty then plain (keyword ++ " \x7b\x7d")
  else plain (keyword ++ " \x7b " ++ joined "; " (fs.map (field bareNull)) ++ " \x7d")

def tuple (ts : List (Ty × TypeText)) : String :=
  "(" ++ joined ", " (ts.map fun t => t.2.alone) ++ ")"

def signature (args results : List (Ty × TypeText)) (modes : List Mode) : String :=
  tuple args ++ " -> " ++ tuple results ++ String.join (modes.map fun m => " " ++ m.keyword)

def method (m : Method (Ty × TypeText)) : String :=
  " " ++ m.name ++ ": " ++ m.type.2.ofMethod ++ ";"

def ofComposite : Composite (Ty × TypeText) → TypeText
  | .opt (_, inner) => plain ("opt " ++ inner.alone)
  | .vec (.prim .nat8, _) => plain "blob"
  | .vec (_, inner) => plain ("vec " ++ inner.alone)
  | .record fs => fields "record" false fs
  | .variant fs => fields "variant" true fs
  | .func args results modes =>
    let text := signature args results modes
    ⟨"func " ++ text, text⟩
  | .service ms => plain ("service \x7b" ++ String.join (ms.map method) ++ " \x7d")
  | .future opcode _ => plain ("future(" ++ toString opcode.toInt ++ ")")

end TypeText

def Ty.display (t : Ty) : TypeText :=
  Ty.fold (fun p => .plain p.keyword) TypeText.plain TypeText.ofComposite t

def Ty.text (t : Ty) : String := t.display.alone

end Didl
