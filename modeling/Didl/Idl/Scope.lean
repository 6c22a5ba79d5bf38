import Didl.Idl.Failure

namespace Didl.Idl

abbrev Scope : Type := List Definition

namespace Scope

def body? (scope : Scope) (name : String) : Option TypeExpr :=
  (scope.find? (·.name == name)).map (·.type)

def isDefined (scope : Scope) (name : String) : Bool := (scope.body? name).isSome

def lookThrough (scope : Scope) (name : String) : Nat → Except CompileFault (String × TypeExpr)
  | 0 => .error (.recursiveNesting name)
  | n + 1 =>
    match scope.body? name with
    | none => .error (.undefined name)
    | some (.name target _) => lookThrough scope target n
    | some body => .ok (name, body)

/-- The definition that a name stands for, aliases looked through. Aliases that do not form a cycle
pass each definition at most once. -/
def canonical (scope : Scope) (name : String) : Except CompileFault (String × TypeExpr) :=
  scope.lookThrough name (scope.length + 1)

def isFunction (scope : Scope) (name : String) : Bool :=
  match scope.canonical name with
  | .ok (_, .form (.func ..)) => true
  | _ => false

def isService (scope : Scope) (name : String) : Bool :=
  match scope.canonical name with
  | .ok (_, .form (.service _)) => true
  | _ => false

end Scope
end Didl.Idl
