import Didl.Idl.Check
import Didl.Idl.Denotation
import Didl.Idl.Grammar
import Didl.Table.Basic

namespace Didl.Idl

structure ServiceType where
  name : Option String
  init : List Ty
  type : Ty

structure Interface where
  program : Program
  table : Table
  definitions : List (String × Ty)
  service : Option ServiceType

structure Signature where
  args : List Ty
  results : List Ty
  modes : List Mode

def Signature.type (s : Signature) : Ty := .composite (.func s.args s.results s.modes)

def liftCompile {α : Type} : Except CompileFault α → Except Failure α
  | .ok a => .ok a
  | .error cause => .error (.compile cause)

def liftWire {α : Type} : Except Fault α → Except Failure α
  | .ok a => .ok a
  | .error cause => .error (.wire cause)

namespace Program

def isAlias : Ty → Bool
  | .named _ => true
  | _ => false

def bindAll (table : Table) (definitions : List (String × Ty)) : Except Failure Table :=
  definitions.foldlM (fun table (name, type) => do
    return (← liftWire (table.registerLabel name type)).2) table

def registerAll (table : Table) (types : List Ty) : Except Failure Table :=
  types.foldlM (fun table type => do return (← liftWire (table.register type)).2) table

/-- The table that binds the definitions. Aliases take the codes of what they stand for, so they
come last. -/
def tableOf (definitions : List (String × Ty)) : Except Failure Table := do
  let table ← bindAll {} (definitions.filter fun d => !isAlias d.2)
  bindAll table (definitions.filter fun d => isAlias d.2)

def serviceType (scope : Scope) (actor : Actor) : Except CompileFault ServiceType := do
  let init ← (actor.init.getD []).mapM fun arg => scope.typeOf arg.type
  return ⟨actor.name, init, ← scope.typeOf actor.body⟩

def interface (program : Program) : Except Failure Interface := do
  liftCompile program.check
  let scope : Scope := program.definitions
  let definitions ← liftCompile (scope.mapM fun d => return (d.name, ← scope.typeOf d.type))
  let table ← tableOf definitions
  match program.actor with
  | none => return ⟨program, table, definitions, none⟩
  | some actor =>
    let service ← liftCompile (serviceType scope actor)
    let table ← registerAll table (service.init ++ [service.type])
    return ⟨program, table, definitions, some service⟩

end Program

namespace Interface

def definition? (i : Interface) (name : String) : Option Ty := i.definitions.lookup name

def method (i : Interface) (name : String) : Except Failure Signature := do
  match i.service with
  | none => throw (.compile .noService)
  | some service =>
    match ← liftWire (i.table.follow service.type) with
    | .composite (.service methods) =>
      match methods.find? (·.name == name) with
      | none => throw (.compile (.noMethod name))
      | some m =>
        match ← liftWire (i.table.follow m.type) with
        | .composite (.func args results modes) => return ⟨args, results, modes⟩
        | head => throw (.compile (.methodOfType name head.type.text))
    | _ => throw (.compile .notService)

end Interface
end Didl.Idl
