namespace Didl.Varint

def more (group : UInt8) : UInt8 := group ||| 0x80

def payload (byte : UInt8) : UInt8 := byte &&& 0x7f

def isLast (byte : UInt8) : Bool := byte &&& 0x80 == 0

def isNegative (byte : UInt8) : Bool := byte &&& 0x40 != 0

def maxWordGroups : Nat := 10

def maxGroups : Nat := 4096

def ofNat (n : Nat) : List UInt8 :=
  if n < 128 then [UInt8.ofNat n] else more (UInt8.ofNat (n % 128)) :: ofNat (n / 128)
termination_by n

def bitLength (n : Nat) : Nat := if n = 0 then 0 else n.log2 + 1

def sizeNat (n : Nat) : Nat := max 1 ((bitLength n + 6) / 7)

def magnitudeBits : Int → Nat
  | .ofNat n => bitLength n
  | .negSucc n => bitLength n

def sizeInt (i : Int) : Nat := max 1 ((magnitudeBits i + 1 + 6) / 7)

/-- The shortest two's complement form, least significant byte first. -/
def complement (i : Int) : List UInt8 :=
  if -128 ≤ i ∧ i < 128 then [UInt8.ofNat (i % 256).toNat]
  else UInt8.ofNat (i % 256).toNat :: complement (i / 256)
termination_by i.natAbs

/-- The group at an index of bytes that go on with `fill`. It may lie across the border of two. -/
def cut (bytes : List UInt8) (fill : UInt8) (index : Nat) : UInt8 :=
  let bit := 7 * index
  let low := (bytes.getD (bit / 8) fill).toUInt16
  let high := (bytes.getD (bit / 8 + 1) fill).toUInt16
  ((high <<< 8 ||| low) >>> UInt16.ofNat (bit % 8) &&& 0x7f).toUInt8

def cutGroups (bytes : List UInt8) (fill : UInt8) : Nat → Nat → List UInt8
  | 0, _ => []
  | 1, index => [cut bytes fill index]
  | count + 1, index => more (cut bytes fill index) :: cutGroups bytes fill count (index + 1)

def ofInt (i : Int) : List UInt8 :=
  cutGroups (complement i) (if i < 0 then 0xff else 0) (sizeInt i) 0

def wordGroups : Nat → UInt64 → List UInt8
  | 0, _ => []
  | count + 1, word =>
    let group := payload word.toUInt8
    let rest := word >>> 7
    if rest == 0 then [group] else more group :: wordGroups count rest

def ofUInt64 (word : UInt64) : List UInt8 := wordGroups maxWordGroups word

/-- Whether what is left of a signed word is only the sign of the group before it. -/
def signOnly (rest : Int64) (group : UInt8) : Bool :=
  (rest == 0 && !isNegative group) || (rest == -1 && isNegative group)

def signedGroups : Nat → Int64 → List UInt8
  | 0, _ => []
  | count + 1, word =>
    let group := payload word.toUInt64.toUInt8
    let rest := word >>> 7
    if signOnly rest group then [group] else more group :: signedGroups count rest

def ofInt64 (word : Int64) : List UInt8 := signedGroups maxWordGroups word

def countGroups : Nat → UInt64 → Nat
  | 0, _ => 0
  | count + 1, word => if word < 0x80 then 1 else countGroups count (word >>> 7) + 1

def sizeUInt64 (word : UInt64) : Nat := countGroups maxWordGroups word

def countSigned : Nat → Int64 → Nat
  | 0, _ => 0
  | count + 1, word =>
    let rest := word >>> 7
    if signOnly rest (payload word.toUInt64.toUInt8) then 1 else countSigned count rest + 1

def sizeInt64 (word : Int64) : Nat := countSigned maxWordGroups word

def value : List UInt8 → Nat
  | [] => 0
  | group :: rest => group.toNat + 128 * value rest

/-- The integer whose two's complement form the groups are; the last group holds the sign. -/
def signedValue (groups : List UInt8) : Int :=
  let negative := match groups.getLast? with
    | some last => isNegative last
    | none => false
  if negative then (value groups : Int) - Nat.pow 2 (7 * groups.length) else value groups

end Didl.Varint
