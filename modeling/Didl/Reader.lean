import Didl.Step
import Didl.Varint

namespace Didl

abbrev Reader (α : Type) : Type := Step (List UInt8) α

namespace Reader

/-- Whether a list has at least `count` members; no more of them than that are looked at. -/
def holds {α : Type} : Nat → List α → Bool
  | 0, _ => true
  | _ + 1, [] => false
  | count + 1, _ :: bs => holds count bs

theorem holds_eq {α : Type} (count : Nat) (bs : List α) :
    holds count bs = decide (count ≤ bs.length) := by
  induction bs generalizing count with
  | nil => cases count <;> simp [holds]
  | cons b bs ih => cases count <;> simp [holds, ih]

def hasLeft (count : Nat) : Reader Bool := fun bs => (.ok (holds count bs), bs)

def byte : Reader UInt8
  | [] => (.error .endOfInput, [])
  | b :: bytes => (.ok b, bytes)

def bytes (count : Nat) : Reader (List UInt8) := fun bs =>
  if holds count bs then (.ok (bs.take count), bs.drop count) else (.error .endOfInput, bs)

def littleEndian : List UInt8 → Nat
  | [] => 0
  | b :: bs => b.toNat + 256 * littleEndian bs

def fixed (count : Nat) : Reader Nat := do
  let bs ← bytes count
  pure (littleEndian bs)

def uint16 : Reader UInt16 := do pure (UInt16.ofNat (← fixed 2))
def uint32 : Reader UInt32 := do pure (UInt32.ofNat (← fixed 4))
def uint64 : Reader UInt64 := do pure (UInt64.ofNat (← fixed 8))
def int8 : Reader Int8 := do pure (← byte).toInt8
def int16 : Reader Int16 := do pure (← uint16).toInt16
def int32 : Reader Int32 := do pure (← uint32).toInt32
def int64 : Reader Int64 := do pure (← uint64).toInt64

def flag (bad : UInt8 → Fault) : Reader Bool := do
  let b ← byte
  if b == 0 then pure false
  else if b == 1 then pure true
  else Step.fail (bad b)

def bool : Reader Bool := flag .badBoolean

def presence : Reader Bool := flag .badPresence

/-- Reads at most `count` more groups into a word. The tenth group has room for one bit. -/
def unsignedGroups : Nat → UInt64 → UInt64 → Reader UInt64
  | 0, _, _ => Step.fail .malformedVarint
  | count + 1, shift, word => do
    let b ← byte
    let group := (Varint.payload b).toUInt64
    if shift == 63 && group > 1 then Step.fail .malformedVarint
    else
      let word := word ||| (group <<< shift)
      if Varint.isLast b then pure word else unsignedGroups count (shift + 7) word

def varUInt64 : Reader UInt64 := unsignedGroups Varint.maxWordGroups 0 0

/-- Reads at most `count` more groups into a word and extends the sign of the last one. Of the
tenth group only the lowest bit has room. -/
def signedGroups : Nat → UInt64 → UInt64 → Reader Int64
  | 0, _, _ => Step.fail .malformedVarint
  | count + 1, shift, word => do
    let b ← byte
    let word := word ||| ((Varint.payload b).toUInt64 <<< shift)
    let shift := shift + 7
    if Varint.isLast b then
      let negative := shift < 64 && Varint.isNegative b
      pure (if negative then word ||| ((0 - 1) <<< shift) else word).toInt64
    else signedGroups count shift word

def varInt64 : Reader Int64 := signedGroups Varint.maxWordGroups 0 0

/-- A count of things that take at least a byte each: a count that the bytes left cannot hold
is refused before anything is read. -/
def length : Reader Nat := do
  let count := (← varUInt64).toNat
  if ← hasLeft count then pure count else Step.fail .endOfInput

def groups : Nat → List UInt8 → Reader (List UInt8)
  | 0, _ => Step.fail .malformedVarint
  | count + 1, done => do
    let b ← byte
    let done := Varint.payload b :: done
    if Varint.isLast b then pure done.reverse else groups count done

def nat : Reader Nat := do
  let gs ← groups Varint.maxGroups []
  pure (Varint.value gs)

def int : Reader Int := do
  let gs ← groups Varint.maxGroups []
  pure (Varint.signedValue gs)

def blob : Reader (List UInt8) := do
  let count ← length
  bytes count

def text : Reader String := do
  let bs ← blob
  match String.fromUTF8? bs.toByteArray with
  | some s => pure s
  | none => Step.fail .notUtf8

end Reader

/-- A place in bytes: all of them, and those that are left to read. -/
structure Cursor where
  data : List UInt8
  rest : List UInt8

namespace Cursor

def ofBytes (data : List UInt8) : Cursor := ⟨data, data⟩

def index (c : Cursor) : Nat := c.data.length - c.rest.length

def remaining (c : Cursor) : Nat := c.rest.length

def run {α : Type} (c : Cursor) (r : Reader α) : Except Fault α × Cursor :=
  let (result, rest) := r c.rest
  (result, { c with rest })

end Cursor

end Didl
