import Didl.Type.Display
import Didl.Fault

namespace Didl

/-- Constructed types in a fixed order, and names bound to codes. A code is the index of an entry or
the opcode of a primitive type. No entry is a name, so that a name is looked through in one step. -/
structure Table where
  entries : List (Composite Ty) := []
  labels : List (String × Int) := []

inductive Head where
  | prim (p : Prim)
  | composite (c : Composite Ty)

namespace Head

def type : Head → Ty
  | prim p => .prim p
  | composite c => .composite c

def isPrim (h : Head) (p : Prim) : Bool :=
  match h with
  | prim q => q == p
  | composite _ => false

end Head

namespace Table

def size (t : Table) : Nat := t.entries.length

def labelCode? (t : Table) (name : String) : Option Int := t.labels.lookup name

def isBound (t : Table) (name : String) : Bool := (t.labelCode? name).isSome

def sortedLabels (t : Table) : List (String × Int) := sortBy Prod.fst t.labels

def entry? (t : Table) (index : Nat) : Option Ty := t.entries[index]?.map .composite

def indexOf? (t : Table) (c : Composite Ty) : Option Nat :=
  t.entries.findIdx? fun e => (Ty.composite e).same (.composite c)

def typeOfCode (t : Table) (code : Int) : Except Fault Head :=
  if code < 0 then
    match Prim.ofOpcode? code with
    | some p => .ok (.prim p)
    | none => .error (.unknownType code)
  else
    match t.entries[code.toNat]? with
    | some c => .ok (.composite c)
    | none => .error (.unknownType code)

def resolve (t : Table) (name : String) : Except Fault Head :=
  match t.labelCode? name with
  | some code => t.typeOfCode code
  | none => .error (.unboundName name)

def follow (t : Table) : Ty → Except Fault Head
  | .prim p => .ok (.prim p)
  | .named name => t.resolve name
  | .composite c => .ok (.composite c)

def codeOf (t : Table) : Ty → Except Fault Int
  | .prim p => .ok p.opcode
  | .named name =>
    match t.labelCode? name with
    | some code => .ok code
    | none => .error (.unboundName name)
  | .composite c =>
    match t.indexOf? c with
    | some index => .ok index
    | none => .error (.badTable (.unregistered (Ty.composite c).text))

def same (t u : Table) : Bool :=
  t.entries.length == u.entries.length &&
    (t.entries.zip u.entries).all (fun (c, d) => (Ty.composite c).same (.composite d)) &&
    t.sortedLabels == u.sortedLabels

def add (t : Table) (c : Composite Ty) : Table :=
  match t.indexOf? c with
  | some _ => t
  | none => { t with entries := t.entries ++ [c] }

/-- Adds every constructed type that occurs in a type, each before its members, and gives the
code of the whole. Names are looked up and never added, which keeps recursive types finite. -/
def register (t : Table) (type : Ty) : Except Fault (Int × Table) :=
  let extended := type.parts.foldl add t
  match extended.codeOf type with
  | .ok code => .ok (code, extended)
  | .error e => .error e

/-- Registers a type and binds a name to it. A name that is bound keeps its first binding. -/
def registerLabel (t : Table) (name : String) (type : Ty) : Except Fault (Int × Table) :=
  match t.labelCode? name with
  | some code => .ok (code, t)
  | none =>
    match t.register type with
    | .ok (code, extended) => .ok (code, { extended with labels := extended.labels ++ [(name, code)] })
    | .error e => .error e

end Table

end Didl
