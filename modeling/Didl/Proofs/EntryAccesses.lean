import Didl.Proofs.Accesses
import Didl.Proofs.ReadTables

namespace Didl

namespace Access
open Entry

def readCode : Access Buffer Int := do return (← varInt64).toInt

def readCodes : Access Buffer (List Int) := do times (← length) readCode

def readFieldsAfter : Nat → List (Field Int) → Access Buffer (List (Field Int))
  | 0, done => return done.reverse
  | count + 1, done => do
    let id := (← varUInt64).toNat
    if id < 4294967296 then
      let id := UInt32.ofNat id
      match done with
      | last :: _ =>
        if id ≤ last.id then fail (.badTable (.fieldOutOfOrder id))
        else readFieldsAfter count (⟨id, none, ← readCode⟩ :: done)
      | [] => readFieldsAfter count [⟨id, none, ← readCode⟩]
    else fail (.badTable .fieldIdTooWide)

def readFields : Access Buffer (List (Field Int)) := do readFieldsAfter (← length) []

def readMode : Access Buffer Mode := do
  let b ← byte
  match Mode.ofByte? b with
  | some m => return m
  | none => fail (.badTable (.unknownMode b))

def readMethodsAfter : Nat → List (Method Int) → Access Buffer (List (Method Int))
  | 0, done => return done.reverse
  | count + 1, done => do
    let name ← text
    match done with
    | last :: _ =>
      if name ≤ last.name then fail (.badTable (.methodOutOfOrder name))
      else readMethodsAfter count (⟨name, ← readCode⟩ :: done)
    | [] => readMethodsAfter count [⟨name, ← readCode⟩]

def readMethods : Access Buffer (List (Method Int)) := do readMethodsAfter (← length) []

def readEntry : Access Buffer Entry := do
  let opcode ← varInt64
  let code := opcode.toInt
  if code = optOpcode then return .opt (← readCode)
  else if code = vecOpcode then return .vec (← readCode)
  else if code = recordOpcode then return .record (← readFields)
  else if code = variantOpcode then return .variant (← readFields)
  else if code = funcOpcode then
    let args ← readCodes
    let results ← readCodes
    return .func args results (← times (← length) readMode)
  else if code = serviceOpcode then return .service (← readMethods)
  else if 0 ≤ code then fail (.badTable (.notAnOpcode code))
  else if (← primitive? code).isSome then fail (.badTable (.notAnOpcode code))
  else return .future opcode (← blob)

def checkCode {σ : Type} (count : Nat) (code : Int) : Access σ Unit := do
  if 0 ≤ code then
    if code < count then return () else fail (.unknownType code)
  else if (← primitive? code).isSome then return ()
  else fail (.unknownType code)

def checkMethod {σ : Type} (entries : Array Entry) (m : Method Int) : Access σ Unit := do
  if m.type < 0 then fail (.badTable (.methodNotFunction m.name))
  else
    match ← load entries[m.type.toNat]? with
    | .func .. | .future .. => return ()
    | _ => fail (.badTable (.methodNotFunction m.name))

end Access

namespace Entry
open Access

theorem refines_readCode : Refines Access.readCode readCode := refines_varInt64.map

theorem refines_readCodes : Refines Access.readCodes readCodes :=
  refines_length.bind fun count => refines_readCode.times count

theorem refines_readFieldsAfter (count : Nat) (done : List (Field Int)) :
    Refines (Access.readFieldsAfter count done) (readFieldsAfter count done) := by
  induction count generalizing done with
  | zero => exact .pure _
  | succ count ih =>
    refine refines_varUInt64.bind fun word => .ite (fun _ => ?_) fun _ => .fail _
    cases done with
    | nil => exact refines_readCode.bind fun code => ih _
    | cons last done =>
      exact .ite (fun _ => .fail _) fun _ => refines_readCode.bind fun code => ih _

theorem refines_readFields : Refines Access.readFields readFields :=
  refines_length.bind fun count => refines_readFieldsAfter count []

theorem refines_readMode : Refines Access.readMode readMode := by
  refine refines_byte.bind fun b => ?_
  cases Mode.ofByte? b with
  | some m => exact .pure m
  | none => exact .fail _

theorem refines_readMethodsAfter (count : Nat) (done : List (Method Int)) :
    Refines (Access.readMethodsAfter count done) (readMethodsAfter count done) := by
  induction count generalizing done with
  | zero => exact .pure _
  | succ count ih =>
    refine refines_text.bind fun name => ?_
    cases done with
    | nil => exact refines_readCode.bind fun code => ih _
    | cons last done =>
      exact .ite (fun _ => .fail _) fun _ => refines_readCode.bind fun code => ih _

theorem refines_readMethods : Refines Access.readMethods readMethods :=
  refines_length.bind fun count => refines_readMethodsAfter count []

theorem refines_read : Refines readEntry read := by
  refine refines_varInt64.bind fun opcode => ?_
  dsimp only
  refine .ite (fun _ => refines_readCode.map) fun _ => .ite (fun _ => refines_readCode.map) fun _ =>
    .ite (fun _ => refines_readFields.map) fun _ => .ite (fun _ => refines_readFields.map) fun _ =>
    .ite (fun _ => ?_) fun _ => .ite (fun _ => refines_readMethods.map) fun _ => ?_
  · exact refines_readCodes.bind fun args => refines_readCodes.bind fun results =>
      refines_length.bind fun count => (refines_readMode.times count).map
  · rw [primitive?_eq, pure_bind]
    by_cases hcode : 0 ≤ opcode.toInt
    · rw [if_pos hcode, if_pos (.inl hcode)]
      exact .fail _
    · by_cases hprim : (Prim.ofOpcode? opcode.toInt).isSome
      · rw [if_neg hcode, if_pos hprim, if_pos (.inr hprim)]
        exact .fail _
      · rw [if_neg hcode, if_neg hprim, if_neg (not_or.mpr ⟨hcode, hprim⟩)]
        exact refines_blob.map

section
variable {σ α : Type}

/-- A list whose items are checked in turn is refused for the first one that is. -/
theorem forM_check {items : List α} {check : α → Access σ Unit} (good : α → Bool)
    (fault : α → Fault)
    (h : ∀ a ∈ items, check a = if good a then Pure.pure () else fail (fault a)) :
    items.forM check = ((items.find? (!good ·)).map fault).elim (Pure.pure ()) fail := by
  induction items with
  | nil => rfl
  | cons a items ih =>
    obtain ⟨ha, hitems⟩ := List.forall_mem_cons.mp h
    rw [List.forM_eq_forM, List.forM_cons, ha, List.find?_cons]
    cases good a with
    | true =>
      rw [if_pos rfl, pure_bind]
      exact ih hitems
    | false => rfl

theorem forM_checkCode (count : Nat) (codes : List Int) :
    codes.forM (checkCode count) = (Access.ofExcept (checkCodes count codes) : Access σ Unit) := by
  have hone : ∀ code ∈ codes, (checkCode count code : Access σ Unit) =
      if knownCode count code then Pure.pure () else fail (.unknownType code) := by
    intro code _
    rw [checkCode, primitive?_eq, pure_bind, knownCode]
    by_cases hcode : 0 ≤ code
    · rw [if_pos hcode, if_neg (not_lt.mpr hcode)]
      simp
    · rw [if_neg hcode, if_pos (not_le.mp hcode)]
  rw [forM_check (knownCode count) .unknownType hone, checkCodes]
  cases codes.find? (!knownCode count ·) <;> rfl

theorem knownCode_lt {count : Nat} {code : Int} (h : knownCode count code = true) (hcode : ¬ code < 0) :
    code.toNat < count := by
  rw [knownCode, if_neg hcode, decide_eq_true_iff] at h
  omega

/-- Where every code is known, no method is looked up out of range. -/
theorem forM_checkMethod {entries : Array Entry}
    (hknown : ∀ e ∈ entries, ∀ code ∈ e.members, knownCode entries.size code = true) :
    (entries.toList.flatMap methods).forM (checkMethod entries) =
      (Access.ofExcept (checkMethods entries) : Access σ Unit) := by
  have hone : ∀ m ∈ entries.toList.flatMap methods, (checkMethod entries m : Access σ Unit) =
      if isFunction entries m.type then Pure.pure ()
      else fail (.badTable (.methodNotFunction m.name)) := by
    intro m hm
    obtain ⟨e, he, hm⟩ := List.mem_flatMap.mp hm
    have hcode : m.type ∈ e.members := by
      cases e with
      | service ms => exact List.mem_map_of_mem hm
      | _ => cases hm
    have hlookup := hknown e (Array.mem_toList_iff.mp he) m.type hcode
    rw [checkMethod, isFunction]
    by_cases hneg : m.type < 0
    · rw [if_pos hneg, if_pos hneg]
      rfl
    · have hlt := knownCode_lt hlookup hneg
      rw [if_neg hneg, if_neg hneg, Array.getElem?_eq_getElem hlt]
      cases entries[m.type.toNat] <;> rfl
  rw [forM_check (fun m => isFunction entries m.type)
    (fun m => .badTable (.methodNotFunction m.name)) hone, checkMethods]
  cases (entries.toList.flatMap methods).find? (!isFunction entries ·.type) <;> rfl

end

end Entry
end Didl
