import Didl.Sorted

namespace Didl

/-- Types that are written as an opcode and take no table entry. -/
inductive Prim where
  | null | bool | nat | int
  | nat8 | nat16 | nat32 | nat64
  | int8 | int16 | int32 | int64
  | float32 | float64
  | text | reserved | empty | principal
  deriving DecidableEq, Repr

namespace Prim

def all : List Prim :=
  [null, bool, nat, int, nat8, nat16, nat32, nat64, int8, int16, int32, int64,
    float32, float64, text, reserved, empty, principal]

def opcode : Prim → Int
  | null => -1 | bool => -2 | nat => -3 | int => -4
  | nat8 => -5 | nat16 => -6 | nat32 => -7 | nat64 => -8
  | int8 => -9 | int16 => -10 | int32 => -11 | int64 => -12
  | float32 => -13 | float64 => -14
  | text => -15 | reserved => -16 | empty => -17 | principal => -24

def keyword : Prim → String
  | null => "null" | bool => "bool" | nat => "nat" | int => "int"
  | nat8 => "nat8" | nat16 => "nat16" | nat32 => "nat32" | nat64 => "nat64"
  | int8 => "int8" | int16 => "int16" | int32 => "int32" | int64 => "int64"
  | float32 => "float32" | float64 => "float64"
  | text => "text" | reserved => "reserved" | empty => "empty" | principal => "principal"

def ofOpcode? (code : Int) : Option Prim := all.find? (·.opcode == code)

def ofKeyword? (word : String) : Option Prim := all.find? (·.keyword == word)

end Prim

inductive Mode where
  | query | oneway | compositeQuery
  deriving DecidableEq, Repr

namespace Mode

def all : List Mode := [query, oneway, compositeQuery]

def byte : Mode → UInt8
  | query => 1 | oneway => 2 | compositeQuery => 3

def keyword : Mode → String
  | query => "query" | oneway => "oneway" | compositeQuery => "composite_query"

def ofByte? (b : UInt8) : Option Mode := all.find? (·.byte == b)

def ofKeyword? (word : String) : Option Mode := all.find? (·.keyword == word)

end Mode

/-- A field of a record or an alternative of a variant. Its identity is its number; the name is
carried to be shown. -/
structure Field (α : Type) where
  id : UInt32
  name : Option String
  type : α

structure Method (α : Type) where
  name : String
  type : α

/-- The number of a named field: its characters as digits in base 223, modulo 2^32. -/
def labelId (name : String) : UInt32 :=
  name.toList.foldl (fun id c => id * 223 + c.val) 0

def Field.named {α : Type} (name : String) (type : α) : Field α := ⟨labelId name, some name, type⟩

inductive Composite (α : Type) where
  | opt (inner : α)
  | vec (inner : α)
  | record (fields : List (Field α))
  | variant (fields : List (Field α))
  | func (args results : List α) (modes : List Mode)
  | service (methods : List (Method α))
  /-- An entry with an opcode that has no meaning yet, kept as it was read. -/
  | future (opcode : Int64) (payload : List UInt8)

namespace Composite
variable {α β : Type}

def map (f : α → β) : Composite α → Composite β
  | opt t => opt (f t)
  | vec t => vec (f t)
  | record fs => record (fs.map fun x => ⟨x.id, x.name, f x.type⟩)
  | variant fs => variant (fs.map fun x => ⟨x.id, x.name, f x.type⟩)
  | func args results modes => func (args.map f) (results.map f) modes
  | service ms => service (ms.map fun x => ⟨x.name, f x.type⟩)
  | future opcode payload => future opcode payload

def mapM {m : Type → Type} [Monad m] (f : α → m β) : Composite α → m (Composite β)
  | opt t => return opt (← f t)
  | vec t => return vec (← f t)
  | record fs => return record (← fs.mapM fun x => return ⟨x.id, x.name, ← f x.type⟩)
  | variant fs => return variant (← fs.mapM fun x => return ⟨x.id, x.name, ← f x.type⟩)
  | func args results modes => return func (← args.mapM f) (← results.mapM f) modes
  | service ms => return service (← ms.mapM fun x => return ⟨x.name, ← f x.type⟩)
  | future opcode payload => return future opcode payload

def members : Composite α → List α
  | opt t | vec t => [t]
  | record fs | variant fs => fs.map (·.type)
  | func args results _ => args ++ results
  | service ms => ms.map (·.type)
  | future _ _ => []

/-- Lays two composites of one kind and one count of members side by side: every pair of members,
with whether their labels agree. -/
def zip : Composite α → Composite β → Option (List (Bool × α × β))
  | opt x, opt y | vec x, vec y => some [(true, x, y)]
  | record xs, record ys | variant xs, variant ys =>
    if xs.length = ys.length then
      some (xs.zipWith (fun x y => (x.id == y.id, x.type, y.type)) ys)
    else none
  | func xs xs' ms, func ys ys' ms' =>
    if ms = ms' ∧ xs.length = ys.length ∧ xs'.length = ys'.length then
      some ((xs ++ xs').zipWith (fun x y => (true, x, y)) (ys ++ ys'))
    else none
  | service xs, service ys =>
    if xs.length = ys.length then
      some (xs.zipWith (fun x y => (x.name == y.name, x.type, y.type)) ys)
    else none
  | future opcode payload, future opcode' payload' =>
    if opcode = opcode' ∧ payload = payload' then some [] else none
  | _, _ => none

end Composite

namespace Composite
variable {α : Type}

/-- Fields in the order of their numbers and methods in the order of their names. -/
def canonical : Composite α → Composite α
  | record fs => record (sortBy (·.id) fs)
  | variant fs => variant (sortBy (·.id) fs)
  | service ms => service (sortBy (·.name) ms)
  | c => c

end Composite

inductive Ty where
  | prim (p : Prim)
  | named (name : String)
  | composite (c : Composite Ty)

instance : Inhabited Ty := ⟨.prim .null⟩

namespace Ty

section Fold
variable {β : Type} (prim : Prim → β) (named : String → β) (composite : Composite (Ty × β) → β)

mutual

/-- What is computed from a type bottom up; at a composite each member is given beside what was
computed from it. -/
def fold : Ty → β
  | .prim p => prim p
  | .named name => named name
  | .composite c => composite (foldComposite c)

def foldComposite : Composite Ty → Composite (Ty × β)
  | .opt t => .opt (t, fold t)
  | .vec t => .vec (t, fold t)
  | .record fs => .record (foldFields fs)
  | .variant fs => .variant (foldFields fs)
  | .func args results modes => .func (foldTypes args) (foldTypes results) modes
  | .service ms => .service (foldMethods ms)
  | .future opcode payload => .future opcode payload

def foldFields : List (Field Ty) → List (Field (Ty × β))
  | [] => []
  | x :: xs => ⟨x.id, x.name, (x.type, fold x.type)⟩ :: foldFields xs

def foldTypes : List Ty → List (Ty × β)
  | [] => []
  | t :: ts => (t, fold t) :: foldTypes ts

def foldMethods : List (Method Ty) → List (Method (Ty × β))
  | [] => []
  | x :: xs => ⟨x.name, (x.type, fold x.type)⟩ :: foldMethods xs

end

end Fold

mutual

def same : Ty → Ty → Bool
  | .prim p, .prim q => p == q
  | .named x, .named y => x == y
  | .composite c, .composite d => sameComposite c d
  | _, _ => false
termination_by structural t => t

def sameComposite : Composite Ty → Composite Ty → Bool
  | .opt t, .opt u | .vec t, .vec u => same t u
  | .record xs, .record ys | .variant xs, .variant ys => sameFields xs ys
  | .func ts rs modes, .func us ss modes' => modes == modes' && sameTypes ts us && sameTypes rs ss
  | .service xs, .service ys => sameMethods xs ys
  | .future opcode payload, .future opcode' payload' => opcode == opcode' && payload == payload'
  | _, _ => false
termination_by structural t => t

def sameFields : List (Field Ty) → List (Field Ty) → Bool
  | [], [] => true
  | x :: xs, y :: ys => x.id == y.id && same x.type y.type && sameFields xs ys
  | _, _ => false
termination_by structural t => t

def sameTypes : List Ty → List Ty → Bool
  | [], [] => true
  | t :: ts, u :: us => same t u && sameTypes ts us
  | _, _ => false
termination_by structural t => t

def sameMethods : List (Method Ty) → List (Method Ty) → Bool
  | [], [] => true
  | x :: xs, y :: ys => x.name == y.name && same x.type y.type && sameMethods xs ys
  | _, _ => false
termination_by structural t => t

end

/-- The constructed types that occur in a type, itself included, each before its members. -/
def parts : Ty → List (Composite Ty) :=
  fold (fun _ => []) (fun _ => [])
    (fun c => c.map Prod.fst :: c.members.flatMap Prod.snd)

def names : Ty → List String :=
  fold (fun _ => []) (fun x => [x]) (fun c => c.members.flatMap Prod.snd)

def size : Ty → Nat :=
  fold (fun _ => 1) (fun _ => 1) (fun c => c.members.foldl (fun n x => n + x.2) 1)

def blob : Ty := .composite (.vec (.prim .nat8))

def isBlob : Ty → Bool
  | .composite (.vec (.prim .nat8)) => true
  | _ => false

end Ty

end Didl
