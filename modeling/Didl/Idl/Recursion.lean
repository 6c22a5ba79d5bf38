import Didl.Idl.Layout
import Didl.Idl.Scope

namespace Didl.Idl

/-- The names that an expression holds outside every option, vector, variant and reference. -/
def TypeExpr.heldNames : TypeExpr → Except CompileFault (List String) :=
  TypeExpr.fold (fun x _ => .ok [x]) (fun _ => .ok []) (.ok []) fun
    | .record fields => do
      let slots ← Layout.slots false fields
      let held ← slots.mapM fun slot =>
        match slot.content with
        | .expr e => e.2
        | .named x => .ok [x]
        | .null => .ok []
      return held.flatten
    | _ => .ok []

namespace Recursion

inductive Visit where
  | enter (name : String)
  | leave (name : String)

def without (name : String) (scope : Scope) : Scope := scope.filter (·.name != name)

theorem length_without_lt {name : String} {scope : Scope} {d : Definition}
    (h : scope.find? (·.name == name) = some d) :
    (without name scope).length < scope.length :=
  List.length_filter_lt_length_iff_exists.2
    ⟨d, List.mem_of_find?_eq_some h, by simpa using List.find?_some h⟩

/-- Makes the pending visits, depth first. `fresh` holds the definitions that were not entered yet
and `opened` the names of those that were not left yet; one that is met while it is open holds
itself. -/
def search (fresh : Scope) (opened : List String) (pending : List Visit) :
    Except CompileFault Unit :=
  match pending with
  | [] => .ok ()
  | .leave name :: rest => search fresh (opened.filter (· != name)) rest
  | .enter name :: rest =>
    if opened.contains name then .error (.recursiveNesting name)
    else
      match _ : fresh.find? (·.name == name) with
      | none => search fresh opened rest
      | some d =>
        match d.type.heldNames with
        | .error e => .error e
        | .ok held =>
          search (without name fresh) (name :: opened) (held.map .enter ++ .leave name :: rest)
termination_by (fresh.length, pending.length)
decreasing_by
  · exact .right _ (by simp)
  · exact .right _ (by simp)
  · exact .left _ _ (length_without_lt ‹_›)

end Recursion

/-- Refuses definitions that have no finite value because they hold themselves. -/
def Scope.checkRecursion (scope : Scope) : Except CompileFault Unit :=
  Recursion.search scope [] (scope.map fun d => .enter d.name)

end Didl.Idl
