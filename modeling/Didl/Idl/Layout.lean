import Didl.Idl.Escape
import Didl.Idl.Failure
import Didl.Type.Basic

namespace Didl.Idl

inductive Content (α : Type) where
  | expr (e : α)
  /-- A record lists the name of a type alone. -/
  | named (name : String)
  /-- A variant lists a label alone. -/
  | null

structure Slot (α : Type) where
  id : UInt32
  name : Option String
  content : Content α
  position : Position

namespace Layout
variable {α : Type}

/-- The number that a label writes: digits in base ten or sixteen, underscores left out, below
2^32. -/
def numeral? (digits : String) : Option UInt32 :=
  let value := match digits.toList.filter (· != '_') with
    | '0' :: 'x' :: ds | '0' :: 'X' :: ds => naturalOf? 16 ds
    | ds => naturalOf? 10 ds
  value.bind fun n => if n < UInt32.size then some (UInt32.ofNat n) else none

def numbered (digits : String) (position : Position) : Except CompileFault UInt32 :=
  match numeral? digits with
  | some id => .ok id
  | none => .error (.badFieldId digits position)

def positional (index : Nat) (position : Position) : Except CompileFault UInt32 :=
  if index < UInt32.size then .ok (UInt32.ofNat index) else .error (.tooManyFields position)

/-- A name alone is a type in a record and a label in a variant. -/
def slot (isVariant : Bool) (index : Nat) (field : FieldExpr α) :
    Except CompileFault (Slot α) := do
  let position := field.position
  match field.label, field.type with
  | some (.name s), some e | some (.text s), some e =>
    return ⟨labelId s, some s, .expr e, position⟩
  | some (.number digits), some e => return ⟨← numbered digits position, none, .expr e, position⟩
  | none, some e => return ⟨← positional index position, none, .expr e, position⟩
  | some l, none =>
    if isVariant then
      match l with
      | .name s | .text s => return ⟨labelId s, some s, .null, position⟩
      | .number digits => return ⟨← numbered digits position, none, .null, position⟩
    else
      match l with
      | .name s => return ⟨← positional index position, none, .named s, position⟩
      | _ => throw (.fieldWithoutType position)
  | none, none => throw (.fieldWithoutType position)

def slotsFrom (isVariant : Bool) (index : Nat) :
    List (FieldExpr α) → Except CompileFault (List (Slot α))
  | [] => .ok []
  | field :: fields => do
    let first ← slot isVariant index field
    return first :: (← slotsFrom isVariant (index + 1) fields)

def slots (isVariant : Bool) (fields : List (FieldExpr α)) :
    Except CompileFault (List (Slot α)) :=
  slotsFrom isVariant 0 fields

end Layout
end Didl.Idl
