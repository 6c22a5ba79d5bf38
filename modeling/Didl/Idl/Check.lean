import Didl.Idl.Keyword
import Didl.Idl.Recursion

namespace Didl.Idl

namespace Scope

def checkNames (seen : List String) : Scope → Except CompileFault Unit
  | [] => .ok ()
  | d :: rest =>
    if Keyword.isReserved d.name then .error (.reservedName d.name d.position)
    else if seen.contains d.name then .error (.definedTwice d.name d.position)
    else checkNames (d.name :: seen) rest

def checkDefined (scope : Scope) (name : String) (position : Position) : Except CompileFault Unit :=
  if scope.isDefined name then .ok () else .error (.undefinedAt name position)

variable {α : Type}

def checkSlots (scope : Scope) (seen : List UInt32) : List (Slot α) → Except CompileFault Unit
  | [] => .ok ()
  | slot :: rest =>
    if seen.contains slot.id then .error (.repeatedId slot.id slot.position)
    else do
      match slot.content with
      | .named name => scope.checkDefined name slot.position
      | _ => .ok ()
      checkSlots scope (slot.id :: seen) rest

def repeated? : List String → Option String :=
  go []
where
  go (seen : List String) : List String → Option String
    | [] => none
    | word :: rest => if seen.contains word then some word else go (word :: seen) rest

def checkModes (modes : List String) (results : List (ArgExpr α)) : Except CompileFault Unit :=
  match repeated? modes with
  | some mode => .error (.repeatedMode mode)
  | none =>
    if modes.length > 1 then .error (.conflictingModes modes)
    else if modes.contains Mode.oneway.keyword ∧ !results.isEmpty then .error .onewayResults
    else .ok ()

/-- Refuses names that two methods have, and methods whose type is the name of no function type;
`seen` holds the names in front. -/
def checkMethods (scope : Scope) (seen : List String) :
    List (MethodExpr TypeExpr) → Except CompileFault Unit
  | [] => .ok ()
  | method :: rest =>
    if seen.contains method.name then .error (.repeatedMethod method.name method.position)
    else do
      match method.type with
      | .name target _ =>
        if scope.isFunction target then .ok ()
        else .error (.methodNotFunction method.name target)
      | _ => .ok ()
      checkMethods scope (method.name :: seen) rest

def checkForm (scope : Scope) : Form TypeExpr → Except CompileFault Unit
  | .opt _ | .vec _ => .ok ()
  | .record fields => do scope.checkSlots [] (← Layout.slots false fields)
  | .variant fields => do scope.checkSlots [] (← Layout.slots true fields)
  | .func _ results modes => checkModes modes results
  | .service methods => scope.checkMethods [] methods

def checkExpr (scope : Scope) : TypeExpr → Except CompileFault Unit :=
  TypeExpr.fold scope.checkDefined (fun _ => .ok ()) (.ok ()) fun form => do
    scope.checkForm (form.map Prod.fst)
    form.members.forM Prod.snd

def checkActor (scope : Scope) (actor : Actor) : Except CompileFault Unit := do
  (actor.init.getD []).forM fun arg => scope.checkExpr arg.type
  scope.checkExpr actor.body
  match actor.body with
  | .name target _ =>
    if scope.isService target then .ok () else .error (.actorNotService target)
  | _ => .ok ()

end Scope

namespace Program

/-- Names of definitions, then recursion, then each expression before its members: the first rule
that is broken is told. -/
def check (program : Program) : Except CompileFault Unit := do
  let scope : Scope := program.definitions
  scope.checkNames []
  scope.checkRecursion
  scope.forM fun d => scope.checkExpr d.type
  program.actor.forM scope.checkActor

end Program
end Didl.Idl
