import Didl.Table.Basic

namespace Didl.Table

def forget (name : String) (bindings : List (String × Int)) : List (String × Int) :=
  bindings.filter (·.1 != name)

theorem length_forget_lt {name : String} {bindings : List (String × Int)}
    (h : bindings.any (·.1 == name) = true) :
    (forget name bindings).length < bindings.length := by
  obtain ⟨binding, mem, eq⟩ := List.any_eq_true.1 h
  exact List.length_filter_lt_length_iff_exists.2 ⟨binding, mem, by simpa using eq⟩

/-- Visits pending names; `fresh` holds the bindings that were not visited yet. Gives each name
met with its type, in the order of the first visits, and the fault that ended the search. -/
def visit (t : Table) (fresh : List (String × Int)) (pending : List String) :
    List (String × Head) × Option Fault :=
  match pending with
  | [] => ([], none)
  | name :: rest =>
    match t.labelCode? name with
    | none => ([], some (.unboundName name))
    | some code =>
      if _ : fresh.any (·.1 == name) then
        match t.typeOfCode code with
        | .error e => ([], some e)
        | .ok head =>
          let (found, fault) := visit t (forget name fresh) (head.type.names.reverse ++ rest)
          ((name, head) :: found, fault)
      else visit t fresh rest
termination_by (fresh.length, pending.length)
decreasing_by
  · exact .left _ _ (length_forget_lt ‹_›)
  · exact .right _ (by simp)

def dependencies (t : Table) (type : Ty) : List (String × Head) × Option Fault :=
  visit t t.labels type.names.reverse

/-- Binds in another table every name that a type depends on, so that the type can be used with
that table alone. What was bound before a fault stays bound. -/
def copyLabels (t : Table) (type : Ty) (into : Table) : Option Fault × Table :=
  let (found, fault) := t.dependencies type
  (fault, found.foldl bind into)
where
  bind (table : Table) : String × Head → Table
    | (name, head) =>
      match table.registerLabel name head.type with
      | .ok (_, extended) => extended
      | .error _ => table

end Didl.Table
