import Didl.Proofs.Steps
import Didl.Reader
import Didl.Type.Basic

namespace Didl

inductive Violation where
  | outOfRange
  | overrun
  | underflow
  | overlongShift
  deriving DecidableEq, Repr

/-- A step over a state that may stop with a fault, and that may be violated. -/
def Access (σ α : Type) : Type := σ → Except Violation (Except Fault α × σ)

namespace Access
variable {σ τ α β : Type}

def pure (a : α) : Access σ α := fun s => .ok (.ok a, s)

def bind (x : Access σ α) (f : α → Access σ β) : Access σ β := fun s =>
  match x s with
  | .ok (.ok a, s) => f a s
  | .ok (.error e, s) => .ok (.error e, s)
  | .error v => .error v

instance : Monad (Access σ) where
  pure := pure
  bind := bind

theorem bind_apply (x : Access σ α) (f : α → Access σ β) (s : σ) :
    (x >>= f) s = match x s with
      | .ok (.ok a, s₁) => f a s₁
      | .ok (.error e, s₁) => .ok (.error e, s₁)
      | .error v => .error v := rfl

instance : LawfulMonad (Access σ) := LawfulMonad.mk' _
  (fun x => by
    funext s
    change (x >>= fun a => pure a) s = x s
    rw [bind_apply]
    rcases x s with v | ⟨_ | a, s⟩ <;> rfl)
  (fun _ _ => rfl)
  (fun x f g => by
    funext s
    simp only [bind_apply]
    rcases x s with v | ⟨_ | a, s⟩ <;> rfl)

def fail (e : Fault) : Access σ α := fun s => .ok (.error e, s)

def violate (v : Violation) : Access σ α := fun _ => .error v

def ofExcept (r : Except Fault α) : Access σ α := fun s => .ok (r, s)

def orFail (x : Access σ α) (e : Fault) : Access σ α := fun s =>
  match x s with
  | .ok (.error _, s) => .ok (.error e, s)
  | r => r

def load (item : Option α) : Access σ α :=
  match item with
  | some a => pure a
  | none => violate .outOfRange

def shiftLeft (word places : UInt64) : Access σ UInt64 :=
  if places < 64 then pure (word <<< places) else violate .overlongShift

def collect (step : Access σ α) : Nat → List α → Access σ (List α)
  | 0, done => pure done.reverse
  | n + 1, done => do
    let a ← step
    collect step n (a :: done)

def times (n : Nat) (step : Access σ α) : Access σ (List α) := collect step n []

def primitive? (opcode : Int) : Access σ (Option Prim) := do
  if -17 ≤ opcode ∧ opcode ≤ -1 then return some (← load Prim.all[(-opcode - 1).toNat]?)
  else if opcode = Prim.principal.opcode then return some (← load Prim.all[17]?)
  else return none

theorem primitive?_eq (opcode : Int) :
    primitive? opcode = (Pure.pure (Prim.ofOpcode? opcode) : Access σ (Option Prim)) := by
  unfold primitive?
  split
  · obtain ⟨hlow, hhigh⟩ := ‹_›
    interval_cases opcode <;> rfl
  · split
    · rename_i h
      rw [h]
      rfl
    · rename_i hrange hprincipal
      have hnone : Prim.ofOpcode? opcode = none := by
        refine List.find?_eq_none.mpr fun p _ hp => ?_
        obtain rfl : p.opcode = opcode := by simpa using hp
        cases p <;> simp_all [Prim.opcode]
      rw [hnone]

end Access

structure Buffer where
  data : List UInt8
  index : Nat

namespace Buffer

def rest (b : Buffer) : List UInt8 := b.data.drop b.index

theorem length_rest (b : Buffer) : b.rest.length = b.data.length - b.index := List.length_drop

def remaining (b : Buffer) : Except Violation Nat :=
  if b.index ≤ b.data.length then .ok (b.data.length - b.index) else .error .underflow

theorem remaining_eq {b : Buffer} (h : b.index ≤ b.data.length) :
    b.remaining = .ok (b.data.length - b.index) := if_pos h

end Buffer

namespace Access

def remaining : Access Buffer Nat := fun b => b.remaining.map fun left => (.ok left, b)

def hasLeft (count : Nat) : Access Buffer Bool := do return decide (count ≤ (← remaining))

def current : Access Buffer UInt8 := fun b => load b.data[b.index]? b

def slice (count : Nat) : Access Buffer (List UInt8) := fun b =>
  if b.index + count ≤ b.data.length then .ok (.ok ((b.data.drop b.index).take count), b)
  else .error .outOfRange

def skip (count : Nat) : Access Buffer Unit := fun b =>
  if b.index + count ≤ b.data.length then .ok (.ok (), ⟨b.data, b.index + count⟩)
  else .error .overrun

def atEnd : Access Buffer Bool := fun b => .ok (.ok (decide (b.data.length ≤ b.index)), b)

def byte : Access Buffer UInt8 := do
  if ← atEnd then fail .endOfInput
  else
    let b ← current
    skip 1
    return b

def bytes (count : Nat) : Access Buffer (List UInt8) := do
  if (← remaining) < count then fail .endOfInput
  else
    let bs ← slice count
    skip count
    return bs

def fixed (count : Nat) : Access Buffer Nat := do return Reader.littleEndian (← bytes count)

def uint16 : Access Buffer UInt16 := do return UInt16.ofNat (← fixed 2)
def uint32 : Access Buffer UInt32 := do return UInt32.ofNat (← fixed 4)
def uint64 : Access Buffer UInt64 := do return UInt64.ofNat (← fixed 8)
def int8 : Access Buffer Int8 := do return (← byte).toInt8
def int16 : Access Buffer Int16 := do return (← uint16).toInt16
def int32 : Access Buffer Int32 := do return (← uint32).toInt32
def int64 : Access Buffer Int64 := do return (← uint64).toInt64

def flag (bad : UInt8 → Fault) : Access Buffer Bool := do
  let b ← byte
  if b == 0 then return false
  else if b == 1 then return true
  else fail (bad b)

def bool : Access Buffer Bool := flag .badBoolean

def presence : Access Buffer Bool := flag .badPresence

def unsignedGroups : Nat → UInt64 → UInt64 → Access Buffer UInt64
  | 0, _, _ => fail .malformedVarint
  | count + 1, places, word => do
    let b ← byte
    let group := (Varint.payload b).toUInt64
    if places == 63 && group > 1 then fail .malformedVarint
    else
      let word := word ||| (← shiftLeft group places)
      if Varint.isLast b then return word else unsignedGroups count (places + 7) word

def varUInt64 : Access Buffer UInt64 := unsignedGroups Varint.maxWordGroups 0 0

def signedGroups : Nat → UInt64 → UInt64 → Access Buffer Int64
  | 0, _, _ => fail .malformedVarint
  | count + 1, places, word => do
    let b ← byte
    let word := word ||| (← shiftLeft (Varint.payload b).toUInt64 places)
    let places := places + 7
    if Varint.isLast b then
      if places < 64 && Varint.isNegative b then return (word ||| (← shiftLeft (0 - 1) places)).toInt64
      else return word.toInt64
    else signedGroups count places word

def varInt64 : Access Buffer Int64 := signedGroups Varint.maxWordGroups 0 0

def length : Access Buffer Nat := do
  let count := (← varUInt64).toNat
  if ← hasLeft count then return count else fail .endOfInput

def groups : Nat → List UInt8 → Access Buffer (List UInt8)
  | 0, _ => fail .malformedVarint
  | count + 1, done => do
    let b ← byte
    let done := Varint.payload b :: done
    if Varint.isLast b then return done.reverse else groups count done

def nat : Access Buffer Nat := do return Varint.value (← groups Varint.maxGroups [])

def int : Access Buffer Int := do return Varint.signedValue (← groups Varint.maxGroups [])

def blob : Access Buffer (List UInt8) := do bytes (← length)

def text : Access Buffer String := do
  let bs ← blob
  match String.fromUTF8? bs.toByteArray with
  | some s => return s
  | none => fail .notUtf8

end Access

/-- An access does what a reader does on the bytes from the index on, without a violation, and moves
the index over the bytes that the reader takes. -/
def Access.Refines {α : Type} (x : Access Buffer α) (r : Reader α) : Prop :=
  ∀ b : Buffer, b.index ≤ b.data.length → ∃ index, b.index ≤ index ∧ index ≤ b.data.length ∧
    x b = .ok ((r b.rest).1, ⟨b.data, index⟩) ∧ (r b.rest).2 = b.data.drop index

namespace Access.Refines
open Access
variable {α β : Type} {x : Access Buffer α} {r : Reader α}

/-- Nothing is read. -/
theorem still (h : ∀ b : Buffer, b.index ≤ b.data.length → x b = .ok ((r b.rest).1, b))
    (hr : ∀ bytes, (r bytes).2 = bytes) : Refines x r :=
  fun b hb => ⟨b.index, Nat.le_refl _, hb, h b hb, hr b.rest⟩

theorem pure (a : α) : Refines (Pure.pure a) (Pure.pure a) := still (fun _ _ => rfl) fun _ => rfl

theorem fail (e : Fault) : Refines (Access.fail e : Access Buffer α) (Step.fail e) :=
  still (fun _ _ => rfl) fun _ => rfl

theorem ofExcept (c : Except Fault α) : Refines (Access.ofExcept c) (Step.ofExcept c) :=
  still (fun _ _ => rfl) fun _ => rfl

/-- What comes next may count on what the reader yields. -/
theorem bind_of {f : α → Access Buffer β} {g : α → Reader β} (hx : Refines x r)
    (hf : ∀ bytes a rest, r bytes = (.ok a, rest) → Refines (f a) (g a)) :
    Refines (x >>= f) (r >>= g) := by
  intro b hb
  obtain ⟨index, hle, hend, hrun, hrest⟩ := hx b hb
  rcases hread : r b.rest with ⟨e | a, rest⟩ <;> rw [hread] at hrun hrest
  · refine ⟨index, hle, hend, ?_, ?_⟩
    · rw [bind_apply, hrun, Step.bind_error hread]
    · rw [Step.bind_error hread]
      exact hrest
  · obtain ⟨index', hle', hend', hrun', hrest'⟩ := hf _ a rest hread ⟨b.data, index⟩ hend
    have hgo : (r >>= g) b.rest = g a (Buffer.rest ⟨b.data, index⟩) := by
      rw [Step.bind_ok hread]
      exact congrArg (g a) hrest
    refine ⟨index', Nat.le_trans hle hle', hend', ?_, ?_⟩
    · rw [bind_apply, hrun, hgo]
      exact hrun'
    · rw [hgo]
      exact hrest'

theorem bind {f : α → Access Buffer β} {g : α → Reader β} (hx : Refines x r)
    (hf : ∀ a, Refines (f a) (g a)) : Refines (x >>= f) (r >>= g) :=
  hx.bind_of fun _ a _ _ => hf a

theorem map {f : α → β} (hx : Refines x r) :
    Refines (x >>= fun a => Pure.pure (f a)) (r >>= fun a => Pure.pure (f a)) :=
  hx.bind fun _ => pure _

theorem ite {c : Prop} [Decidable c] {y : Access Buffer α} {q : Reader α} (hx : c → Refines x r)
    (hy : ¬ c → Refines y q) : Refines (if c then x else y) (if c then r else q) := by
  by_cases hc : c
  · rw [if_pos hc, if_pos hc]
    exact hx hc
  · rw [if_neg hc, if_neg hc]
    exact hy hc

theorem orFail (hx : Refines x r) (e : Fault) : Refines (x.orFail e) (r.orFail e) := by
  intro b hb
  obtain ⟨index, hle, hend, hrun, hrest⟩ := hx b hb
  refine ⟨index, hle, hend, ?_, ?_⟩
  · rw [Access.orFail, hrun, Step.orFail]
    rcases r b.rest with ⟨_ | a, rest⟩ <;> rfl
  · rw [Step.orFail]
    rcases hread : r b.rest with ⟨_ | a, rest⟩ <;> rw [hread] at hrest <;> exact hrest

theorem collect (hx : Refines x r) (n : Nat) (done : List α) :
    Refines (Access.collect x n done) (Step.collect r n done) := by
  induction n generalizing done with
  | zero => exact pure done.reverse
  | succ n ih =>
    rw [Step.collect_succ]
    exact hx.bind fun a => ih (a :: done)

theorem times (hx : Refines x r) (n : Nat) : Refines (Access.times n x) (Step.times n r) :=
  hx.collect n []

end Access.Refines

open Access

/-- The count of bytes left may be asked for at any time. -/
theorem Access.Refines.after_remaining {α : Type} {x : Access Buffer α} {r : Reader α} (h : Refines x r) :
    Refines (remaining >>= fun _ => x) r := by
  intro b hb
  rw [bind_apply, remaining, Buffer.remaining_eq hb]
  exact h b hb

theorem refines_hasLeft (count : Nat) : Refines (hasLeft count) (Reader.hasLeft count) := by
  refine .still (fun b hb => ?_) fun _ => rfl
  rw [hasLeft, bind_apply, remaining, Buffer.remaining_eq hb, ← b.length_rest]
  exact congrArg (fun c => Except.ok (Except.ok c, b)) (Reader.holds_eq count b.rest).symm

theorem refines_byte : Refines byte Reader.byte := by
  intro b hb
  rcases hrest : b.rest with _ | ⟨c, rest⟩
  · have hend : b.data.length ≤ b.index := by
      have hlength := b.length_rest
      rw [hrest, List.length_nil] at hlength
      omega
    refine ⟨b.index, Nat.le_refl _, hb, ?_, hrest.symm⟩
    rw [byte, bind_apply, atEnd, decide_eq_true hend]
    rfl
  · have hlt : b.index < b.data.length := by
      have hlength := b.length_rest
      rw [hrest, List.length_cons] at hlength
      omega
    have hcurrent : b.data[b.index]? = some c := by
      rw [← List.head?_drop]
      exact congrArg List.head? hrest
    refine ⟨b.index + 1, Nat.le_succ _, hlt, ?_, ?_⟩
    · rw [byte, bind_apply, atEnd, decide_eq_false (by omega)]
      dsimp only
      rw [if_neg Bool.false_ne_true, bind_apply, current, hcurrent]
      change (skip 1 >>= fun _ => Pure.pure c) b = _
      rw [bind_apply, skip, if_pos (Nat.succ_le_of_lt hlt)]
      rfl
    · rw [← List.tail_drop]
      exact (congrArg List.tail hrest).symm

theorem refines_bytes (count : Nat) : Refines (bytes count) (Reader.bytes count) := by
  intro b hb
  have hlength := b.length_rest
  rw [bytes, bind_apply, remaining, Buffer.remaining_eq hb, Reader.bytes, Reader.holds_eq]
  dsimp only [Except.map]
  by_cases hlt : b.data.length - b.index < count
  · rw [if_pos hlt, if_neg (by rw [decide_eq_true_iff]; omega)]
    exact ⟨b.index, Nat.le_refl _, hb, rfl, rfl⟩
  · rw [if_neg hlt, if_pos (decide_eq_true (by omega)), bind_apply, slice, if_pos (by omega)]
    dsimp only
    rw [bind_apply, skip, if_pos (by omega)]
    exact ⟨b.index + count, Nat.le_add_right _ _, by omega, rfl, List.drop_drop⟩

theorem refines_fixed (count : Nat) : Refines (fixed count) (Reader.fixed count) :=
  (refines_bytes count).map

theorem refines_uint16 : Refines uint16 Reader.uint16 := (refines_fixed 2).map

theorem refines_uint32 : Refines uint32 Reader.uint32 := (refines_fixed 4).map

theorem refines_uint64 : Refines uint64 Reader.uint64 := (refines_fixed 8).map

theorem refines_int8 : Refines int8 Reader.int8 := refines_byte.map

theorem refines_int16 : Refines int16 Reader.int16 := refines_uint16.map

theorem refines_int32 : Refines int32 Reader.int32 := refines_uint32.map

theorem refines_int64 : Refines int64 Reader.int64 := refines_uint64.map

theorem refines_flag (bad : UInt8 → Fault) : Refines (flag bad) (Reader.flag bad) :=
  refines_byte.bind fun _ => .ite (fun _ => .pure _) fun _ => .ite (fun _ => .pure _) fun _ => .fail _

/-- A shift by fewer places than the word has does not end the run. -/
theorem shiftLeft_eq {σ : Type} {word places : UInt64} (h : places < 64) :
    (shiftLeft word places : Access σ UInt64) = Pure.pure (word <<< places) := if_pos h

/-- Where at most ten groups are read, every one of them is shifted within the word. -/
theorem places_lt {places : UInt64} {count : Nat} (h : places.toNat + 7 * (count + 1) = 70) :
    places < 64 ∧ (places + 7).toNat + 7 * count = 70 := by
  have h7 : (7 : UInt64).toNat = 7 := rfl
  have h64 : (64 : UInt64).toNat = 64 := rfl
  rw [UInt64.lt_iff_toNat_lt, UInt64.toNat_add, h7, h64]
  omega

theorem refines_unsignedGroups {count : Nat} {places : UInt64} (h : places.toNat + 7 * count = 70)
    (word : UInt64) :
    Refines (unsignedGroups count places word) (Reader.unsignedGroups count places word) := by
  induction count generalizing places word with
  | zero => exact .fail _
  | succ count ih =>
    obtain ⟨hplaces, hnext⟩ := places_lt h
    refine refines_byte.bind fun b => ?_
    dsimp only
    rw [shiftLeft_eq hplaces, pure_bind]
    exact .ite (fun _ => .fail _) fun _ => .ite (fun _ => .pure _) fun _ => ih hnext _

theorem refines_varUInt64 : Refines varUInt64 Reader.varUInt64 :=
  refines_unsignedGroups (by decide) 0

/-- The sign is extended only where the word has room for it. -/
theorem refines_signedGroups {count : Nat} {places : UInt64} (h : places.toNat + 7 * count = 70)
    (word : UInt64) :
    Refines (signedGroups count places word) (Reader.signedGroups count places word) := by
  induction count generalizing places word with
  | zero => exact .fail _
  | succ count ih =>
    obtain ⟨hplaces, hnext⟩ := places_lt h
    refine refines_byte.bind fun b => ?_
    dsimp only
    rw [shiftLeft_eq hplaces, pure_bind]
    refine .ite (fun _ => ?_) fun _ => ih hnext _
    by_cases hnegative : (decide (places + 7 < 64) && Varint.isNegative b) = true
    · have hroom : places + 7 < 64 := of_decide_eq_true (Bool.and_eq_true_iff.mp hnegative).1
      rw [if_pos hnegative, if_pos hnegative, shiftLeft_eq hroom, pure_bind]
      exact .pure _
    · rw [if_neg hnegative, if_neg hnegative]
      exact .pure _

theorem refines_varInt64 : Refines varInt64 Reader.varInt64 := refines_signedGroups (by decide) 0

theorem refines_length : Refines length Reader.length :=
  refines_varUInt64.bind fun _ => (refines_hasLeft _).bind fun _ =>
    .ite (fun _ => .pure _) fun _ => .fail _

theorem refines_groups (count : Nat) (done : List UInt8) :
    Refines (groups count done) (Reader.groups count done) := by
  induction count generalizing done with
  | zero => exact .fail _
  | succ count ih =>
    exact refines_byte.bind fun b => .ite (fun _ => .pure _) fun _ => ih _

theorem refines_nat : Refines nat Reader.nat := (refines_groups _ _).map

theorem refines_int : Refines int Reader.int := (refines_groups _ _).map

theorem refines_blob : Refines blob Reader.blob := refines_length.bind refines_bytes

theorem refines_text : Refines text Reader.text := by
  refine refines_blob.bind fun bs => ?_
  cases String.fromUTF8? bs.toByteArray with
  | some s => exact .pure s
  | none => exact .fail _

end Didl
