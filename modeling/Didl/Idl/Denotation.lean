import Didl.Idl.Layout
import Didl.Idl.Scope

namespace Didl.Idl

def primitiveOf (keyword : String) : Except CompileFault Ty :=
  match Prim.ofKeyword? keyword with
  | some p => .ok (.prim p)
  | none => .error (.unknownPrimitive keyword)

def modeOf (word : String) : Except CompileFault Mode :=
  match Mode.ofKeyword? word with
  | some mode => .ok mode
  | none => .error (.unknownMode word)

namespace Scope

def typeOfName (scope : Scope) (name : String) : Except CompileFault Ty := do
  match ← scope.canonical name with
  | (_, .primitive keyword) => primitiveOf keyword
  | (target, _) => return .named target

/-- Fields of which each expression stands beside the type that it denotes. -/
def typedFields {α : Type} (scope : Scope) (isVariant : Bool)
    (fields : List (FieldExpr (α × Except CompileFault Ty))) :
    Except CompileFault (List (Field Ty)) := do
  (← Layout.slots isVariant fields).mapM fun slot => do
    match slot.content with
    | .expr e => return ⟨slot.id, slot.name, ← e.2⟩
    | .named name => return ⟨slot.id, slot.name, ← scope.typeOfName name⟩
    | .null => return ⟨slot.id, slot.name, .prim .null⟩

def typedForm {α : Type} (scope : Scope) :
    Form (α × Except CompileFault Ty) → Except CompileFault (Composite Ty)
  | .opt e => return .opt (← e.2)
  | .vec e => return .vec (← e.2)
  | .record fields => return .record (← scope.typedFields false fields)
  | .variant fields => return .variant (← scope.typedFields true fields)
  | .func args results modes =>
    return .func (← args.mapM (·.type.2)) (← results.mapM (·.type.2)) (← modes.mapM modeOf)
  | .service methods => return .service (← methods.mapM fun m => return ⟨m.name, ← m.type.2⟩)

/-- The type that an expression denotes: fields in the order of their numbers, methods in the order
of their names. A definition is denoted by its own name, so that recursion stays behind names, but
one of a primitive type is that type. -/
def typeOf (scope : Scope) : TypeExpr → Except CompileFault Ty :=
  TypeExpr.fold (fun x _ => scope.typeOfName x) primitiveOf (.ok Ty.blob) fun form =>
    return .composite (← scope.typedForm form).canonical

end Scope
end Didl.Idl
