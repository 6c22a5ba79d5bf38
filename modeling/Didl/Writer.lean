import Didl.Step
import Didl.Varint

namespace Didl

abbrev Writer : Type := Step (Array UInt8) Unit

namespace Writer

def bytes (bs : List UInt8) : Writer := fun out => (.ok (), out ++ bs)

def byte (b : UInt8) : Writer := fun out => (.ok (), out.push b)

def littleEndian : Nat → Nat → List UInt8
  | 0, _ => []
  | count + 1, n => UInt8.ofNat n :: littleEndian count (n / 256)

def flag (b : Bool) : List UInt8 := [if b then 1 else 0]

def blob (bs : List UInt8) : List UInt8 := Varint.ofNat bs.length ++ bs

def text (s : String) : List UInt8 := blob s.toUTF8.toList

def sizeBlob (count : Nat) : Nat := Varint.sizeNat count + count

end Writer

end Didl
