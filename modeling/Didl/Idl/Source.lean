namespace Didl.Idl

structure Position where
  line : Nat
  column : Nat
  deriving DecidableEq, Repr

def Position.step (p : Position) (c : Char) : Position :=
  if c = '\n' then ⟨p.line + 1, 1⟩ else ⟨p.line, p.column + 1⟩

def Position.advance (p : Position) (text : List Char) : Position := text.foldl step p

inductive Label where
  | name (s : String)
  | text (s : String)
  | number (digits : String)
  deriving DecidableEq, Repr

/-- A field without a label is numbered by its position; one without a type is a shorthand. -/
structure FieldExpr (α : Type) where
  label : Option Label
  type : Option α
  position : Position

structure ArgExpr (α : Type) where
  name : Option String
  type : α

structure MethodExpr (α : Type) where
  name : String
  position : Position
  type : α

inductive Form (α : Type) where
  | opt (inner : α)
  | vec (inner : α)
  | record (fields : List (FieldExpr α))
  | variant (fields : List (FieldExpr α))
  | func (args results : List (ArgExpr α)) (modes : List String)
  | service (methods : List (MethodExpr α))

def Form.map {α β : Type} (f : α → β) : Form α → Form β
  | opt e => opt (f e)
  | vec e => vec (f e)
  | record fs => record (fs.map fun x => ⟨x.label, x.type.map f, x.position⟩)
  | variant fs => variant (fs.map fun x => ⟨x.label, x.type.map f, x.position⟩)
  | func args results modes =>
    func (args.map fun x => ⟨x.name, f x.type⟩) (results.map fun x => ⟨x.name, f x.type⟩) modes
  | service ms => service (ms.map fun x => ⟨x.name, x.position, f x.type⟩)

def Form.members {α : Type} : Form α → List α
  | opt e | vec e => [e]
  | record fs | variant fs => fs.filterMap (·.type)
  | func args results _ => (args ++ results).map (·.type)
  | service ms => ms.map (·.type)

inductive TypeExpr where
  | name (name : String) (position : Position)
  | primitive (keyword : String)
  | blob
  | form (f : Form TypeExpr)

instance : Inhabited TypeExpr := ⟨.blob⟩

namespace TypeExpr

section Fold
variable {β : Type} (name : String → Position → β) (primitive : String → β) (blob : β)
  (form : Form (TypeExpr × β) → β)

mutual

/-- What is computed from an expression bottom up; at a form each member is given beside what was
computed from it. -/
def fold : TypeExpr → β
  | .name s p => name s p
  | .primitive keyword => primitive keyword
  | .blob => blob
  | .form f => form (foldForm f)

def foldForm : Form TypeExpr → Form (TypeExpr × β)
  | .opt e => .opt (e, fold e)
  | .vec e => .vec (e, fold e)
  | .record fs => .record (foldFields fs)
  | .variant fs => .variant (foldFields fs)
  | .func args results modes => .func (foldArgs args) (foldArgs results) modes
  | .service ms => .service (foldMethods ms)

def foldFields : List (FieldExpr TypeExpr) → List (FieldExpr (TypeExpr × β))
  | [] => []
  | ⟨label, none, position⟩ :: fs => ⟨label, none, position⟩ :: foldFields fs
  | ⟨label, some e, position⟩ :: fs => ⟨label, some (e, fold e), position⟩ :: foldFields fs

def foldArgs : List (ArgExpr TypeExpr) → List (ArgExpr (TypeExpr × β))
  | [] => []
  | a :: as => ⟨a.name, (a.type, fold a.type)⟩ :: foldArgs as

def foldMethods : List (MethodExpr TypeExpr) → List (MethodExpr (TypeExpr × β))
  | [] => []
  | m :: ms => ⟨m.name, m.position, (m.type, fold m.type)⟩ :: foldMethods ms

end

end Fold

end TypeExpr

structure Import where
  path : String
  position : Position

structure Definition where
  name : String
  position : Position
  type : TypeExpr

structure Actor where
  name : Option String
  position : Position
  init : Option (List (ArgExpr TypeExpr))
  body : TypeExpr

structure Program where
  imports : List Import
  definitions : List Definition
  actor : Option Actor

end Didl.Idl
