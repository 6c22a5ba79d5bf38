import Didl.Proofs.Accesses
import Didl.Proofs.ReadAlike
import Didl.Value.Decode

namespace Didl

namespace Access
variable {σ : Type}

def typeOfCode (t : Table) (code : Int) : Access σ Head := do
  if code < 0 then
    match ← primitive? code with
    | some p => return .prim p
    | none => fail (.unknownType code)
  else
    match t.entries[code.toNat]? with
    | some c => return .composite c
    | none => fail (.unknownType code)

def follow (t : Table) : Ty → Access σ Head
  | .prim p => return .prim p
  | .named name =>
    match t.labelCode? name with
    | some code => typeOfCode t code
    | none => fail (.unboundName name)
  | .composite c => return .composite c

def allFields (ask : Ty → Access σ Bool) : List (Field Ty) → Access σ Bool
  | [] => return true
  | f :: fs => do if ← ask f.type then allFields ask fs else return false

def zeroSized (t : Table) : Nat → Ty → Access σ Bool
  | 0, _ => return false
  | limit + 1, type => do
    match ← follow t type with
    | .prim .null | .prim .reserved => return true
    | .composite (.record fields) => allFields (zeroSized t limit) fields
    | _ => return false

def readReference : Access Buffer (Option (List UInt8)) := do
  if ← presence then return some (← blob) else return none

def readFunc : Access Buffer (Option FuncRef) := do
  if ← presence then
    let service ← readReference
    return some ⟨service, ← text⟩
  else return none

def readPrim : Prim → Access Buffer Value
  | .null => return .null
  | .reserved => return .reserved
  | .empty => fail .emptyValue
  | .bool => do return .bool (← bool)
  | .nat => do return .nat (← nat)
  | .int => do return .int (← int)
  | .nat8 => do return .nat8 (← byte)
  | .nat16 => do return .nat16 (← uint16)
  | .nat32 => do return .nat32 (← uint32)
  | .nat64 => do return .nat64 (← uint64)
  | .int8 => do return .int8 (← int8)
  | .int16 => do return .int16 (← int16)
  | .int32 => do return .int32 (← int32)
  | .int64 => do return .int64 (← int64)
  | .float32 => do return .float32 (← uint32)
  | .float64 => do return .float64 (← uint64)
  | .text => do return .text (← text)
  | .principal => do return .principal (← readReference)

abbrev Decode (α : Type) : Type := Nat → Access Buffer (α × Nat)

def readItems (item : Decode Value) : Nat → List Value → Decode (List Value)
  | 0, done, allowance => return (done.reverse, allowance)
  | count + 1, done, allowance => do
    let (v, allowance) ← item allowance
    readItems item count (v :: done) allowance

def readFieldValues (read : Ty → Decode Value) : List (Field Ty) → Decode (List (UInt32 × Value))
  | [], allowance => return ([], allowance)
  | f :: fs, allowance => do
    let (v, allowance) ← read f.type allowance
    let (vs, allowance) ← readFieldValues read fs allowance
    return ((f.id, v) :: vs, allowance)

def charge (zeroSized : Bool) (count allowance : Nat) : Access Buffer Nat := do
  if zeroSized then
    if count ≤ allowance then return allowance - count else fail .tooManyElements
  else if ← hasLeft count then return allowance
  else fail .endOfInput

def readAt (t : Table) : Nat → Ty → Decode Value
  | 0, _, _ => fail .tooDeep
  | limit + 1, type, allowance => do
    match ← follow t type with
    | .prim p => return (← readPrim p, allowance)
    | .composite (.opt inner) =>
      if ← presence then
        let (v, allowance) ← readAt t limit inner allowance
        return (.opt (some v), allowance)
      else return (.opt none, allowance)
    | .composite (.vec inner) =>
      if (← follow t inner).isPrim .nat8 then return (.blob (← blob), allowance)
      else
        let count := (← varUInt64).toNat
        let zeroSized ← zeroSized t (maxDepth + 1) inner
        let allowance ← charge zeroSized count allowance
        -- room is made for no more items than there are bytes left
        let _ ← remaining
        let (vs, allowance) ← readItems (readAt t limit inner) count [] allowance
        return (.vec vs, allowance)
    | .composite (.record fields) =>
      let (vs, allowance) ← readFieldValues (readAt t limit) (sortBy (·.id) fields) allowance
      return (.record (Assoc.ofList vs), allowance)
    | .composite (.variant fields) =>
      let tag := (← varUInt64).toNat
      match fields.find? (·.id.toNat == tag) with
      | none => fail (.unknownTag tag)
      | some f =>
        let (v, allowance) ← readAt t limit f.type allowance
        return (.variant f.id v, allowance)
    | .composite (.func ..) => return (.func (← readFunc), allowance)
    | .composite (.service _) => return (.service (← readReference), allowance)
    | .composite (.future ..) => return (.future (← blob), allowance)

def readValue (t : Table) (type : Ty) : Access Buffer Value := do
  let (v, _) ← readAt t (maxDepth + 1) type maxZeroSized
  return v

theorem typeOfCode_eq (t : Table) (code : Int) :
    (typeOfCode t code : Access σ Head) = ofExcept (t.typeOfCode code) := by
  rw [typeOfCode, Table.typeOfCode, primitive?_eq, pure_bind]
  split
  · cases Prim.ofOpcode? code <;> rfl
  · cases t.entries[code.toNat]? <;> rfl

theorem follow_eq (t : Table) (type : Ty) :
    (follow t type : Access σ Head) = ofExcept (t.follow type) := by
  cases type with
  | prim p => rfl
  | composite c => rfl
  | named name =>
    rw [follow, Table.follow, Table.resolve]
    cases t.labelCode? name with
    | some code => exact typeOfCode_eq t code
    | none => rfl

theorem allFields_eq {ask : Ty → Access σ Bool} {ask' : Ty → Except Fault Bool}
    (h : ∀ type, ask type = ofExcept (ask' type)) (fields : List (Field Ty)) :
    allFields ask fields = ofExcept (Table.zeroSized.allFields ask' fields) := by
  induction fields with
  | nil => rfl
  | cons f fields ih =>
    rw [allFields, Table.zeroSized.allFields, h, ih]
    rcases ask' f.type with e | _ | _ <;> rfl

theorem zeroSized_eq (t : Table) (limit : Nat) (type : Ty) :
    (zeroSized t limit type : Access σ Bool) = ofExcept (t.zeroSized limit type) := by
  induction limit generalizing type with
  | zero => rfl
  | succ limit ih =>
    rw [zeroSized, Table.zeroSized, follow_eq]
    rcases t.follow type with e | p | c
    · rfl
    · cases p <;> rfl
    · cases c with
      | record fields => exact allFields_eq ih fields
      | _ => rfl

end Access

open Access

theorem refines_readReference : Refines Access.readReference readReference :=
  (refines_flag _).bind fun _ => .ite (fun _ => refines_blob.map) fun _ => .pure none

theorem refines_readFunc : Refines Access.readFunc readFunc :=
  (refines_flag _).bind fun _ => .ite
    (fun _ => refines_readReference.bind fun _ => refines_text.map) fun _ => .pure none

theorem Prim.refines_reader (p : Prim) : Refines (readPrim p) p.reader := by
  cases p with
  | null | reserved => exact .pure _
  | empty => exact .fail _
  | bool => exact (refines_flag _).map
  | nat => exact refines_nat.map
  | int => exact refines_int.map
  | nat8 => exact refines_byte.map
  | nat16 => exact refines_uint16.map
  | nat32 | float32 => exact refines_uint32.map
  | nat64 | float64 => exact refines_uint64.map
  | int8 => exact refines_int8.map
  | int16 => exact refines_int16.map
  | int32 => exact refines_int32.map
  | int64 => exact refines_int64.map
  | text => exact refines_text.map
  | principal => exact refines_readReference.map

namespace Value

theorem refines_readItems {item : Access.Decode Value} {item' : Decode Value}
    (h : ∀ allowance, Refines (item allowance) (item' allowance)) (count : Nat) (done : List Value)
    (allowance : Nat) :
    Refines (Access.readItems item count done allowance) (readItems item' count done allowance) := by
  induction count generalizing done allowance with
  | zero => exact .pure _
  | succ count ih =>
    rw [readItems_succ]
    exact (h allowance).bind fun r => ih _ _

theorem refines_readFields {read : Ty → Access.Decode Value} {read' : Ty → Decode Value}
    (h : ∀ type allowance, Refines (read type allowance) (read' type allowance))
    (fields : List (Field Ty)) (allowance : Nat) :
    Refines (readFieldValues read fields allowance) (readFields read' fields allowance) := by
  induction fields generalizing allowance with
  | nil => exact .pure _
  | cons f fields ih => exact (h f.type allowance).bind fun r => (ih r.2).bind fun _ => .pure _

theorem refines_charge (zeroSized : Bool) (count allowance : Nat) :
    Refines (Access.charge zeroSized count allowance) (charge zeroSized count allowance) :=
  .ite (fun _ => .ite (fun _ => .pure _) fun _ => .fail _) fun _ =>
    (refines_hasLeft count).bind fun _ => .ite (fun _ => .pure _) fun _ => .fail _

/-- The induction is on the levels that are left. -/
theorem refines_read (t : Table) (limit : Nat) (type : Ty) (allowance : Nat) :
    Refines (readAt t limit type allowance) (read t limit type allowance) := by
  induction limit generalizing type allowance with
  | zero => exact .fail _
  | succ limit ih =>
    rw [readAt, read, follow_eq]
    refine (Refines.ofExcept _).bind fun head => ?_
    rcases head with p | c
    · exact p.refines_reader.map
    cases c with
    | opt inner =>
      exact (refines_flag _).bind fun _ => .ite (fun _ => (ih inner allowance).bind fun _ => .pure _)
        fun _ => .pure _
    | vec inner =>
      dsimp only
      rw [follow_eq]
      refine (Refines.ofExcept _).bind fun head => .ite (fun _ => refines_blob.map) fun _ => ?_
      refine refines_varUInt64.bind fun word => ?_
      rw [zeroSized_eq]
      refine (Refines.ofExcept _).bind fun zero => (refines_charge _ _ _).bind fun left => ?_
      refine .after_remaining ?_
      exact (refines_readItems (ih inner) _ _ _).bind fun _ => .pure _
    | record fields => exact (refines_readFields ih _ _).bind fun _ => .pure _
    | variant fields =>
      refine refines_varUInt64.bind fun word => ?_
      dsimp only
      cases fields.find? (·.id.toNat == word.toNat) with
      | none => exact .fail _
      | some f => exact (ih f.type allowance).bind fun _ => .pure _
    | func args results modes => exact refines_readFunc.map
    | service methods => exact refines_readReference.map
    | future opcode payload => exact refines_blob.map

theorem refines_reader (t : Table) (type : Ty) : Refines (readValue t type) (reader t type) :=
  (refines_read t _ type _).bind fun _ => .pure _

end Value
end Didl
