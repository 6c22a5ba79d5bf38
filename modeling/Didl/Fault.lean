namespace Didl

inductive TableFault where
  | fieldIdTooWide
  | fieldOutOfOrder (id : UInt32)
  | methodOutOfOrder (name : String)
  | unknownMode (byte : UInt8)
  | notAnOpcode (code : Int)
  | methodNotFunction (name : String)
  | unregistered (type : String)
  | notAnEntry (type : String)
  deriving DecidableEq, Repr

/-- A cause for which reading or writing stops. Types appear as the text that names them. -/
inductive Fault where
  | endOfInput
  | malformedVarint
  | badMagic
  | unknownType (code : Int)
  | badBoolean (byte : UInt8)
  | badPresence (byte : UInt8)
  | emptyValue
  | notUtf8
  | unknownTag (tag : Nat)
  | badTable (cause : TableFault)
  | unboundName (name : String)
  | mismatch (expected found : String)
  | missingField (id : UInt32)
  | trailingBytes (count : Nat)
  | tooDeep
  | tooManyElements
  deriving DecidableEq, Repr

def maxDepth : Nat := 512

/-- Elements of zero size that one message may hold. They take no input, so nothing else
bounds how many a short message can claim. -/
def maxZeroSized : Nat := 4194304

def TableFault.message : TableFault → String
  | .fieldIdTooWide => "field id exceeds 32 bits"
  | .fieldOutOfOrder id => s!"field id {id} is out of order or duplicated"
  | .methodOutOfOrder name => s!"method {name} is out of order or duplicated"
  | .unknownMode byte => s!"unknown function annotation {byte}"
  | .notAnOpcode code => s!"opcode {code} cannot start a table entry"
  | .methodNotFunction name => s!"method {name} does not have a function type"
  | .unregistered type => s!"type {type} is not registered"
  | .notAnEntry type => s!"{type} cannot be a table entry"

def hexDigit (n : Nat) : Char :=
  Char.ofNat (if n < 10 then 48 + n else 87 + n)

def hexByte (b : UInt8) : String :=
  String.ofList [hexDigit (b.toNat / 16), hexDigit (b.toNat % 16)]

def hex (bytes : List UInt8) : String :=
  bytes.foldl (fun text b => text ++ hexByte b) ""

def Fault.message : Fault → String
  | .endOfInput => "Unexpected end of input"
  | .malformedVarint => "Malformed variable-length integer"
  | .badMagic => "Bad magic tag, expected \"DIDL\""
  | .unknownType code => s!"Unknown type opcode {code}"
  | .badBoolean byte => "Invalid boolean byte 0x" ++ hexByte byte
  | .badPresence byte => "Invalid presence flag 0x" ++ hexByte byte
  | .emptyValue => "Values of type empty cannot be serialized or deserialized"
  | .notUtf8 => "Text is not valid UTF-8"
  | .unknownTag tag => s!"Variant tag {tag} is not an alternative of the expected type"
  | .badTable cause => "Invalid type table: " ++ cause.message
  | .unboundName name => "Unresolved type name \"" ++ name ++ "\""
  | .mismatch expected found => "Type mismatch: expected " ++ expected ++ ", found " ++ found
  | .missingField id => s!"Missing record field {id}"
  | .trailingBytes count => s!"{count} trailing bytes after the last value"
  | .tooDeep => "Nesting exceeds the decoder depth limit"
  | .tooManyElements => s!"More than {maxZeroSized} zero-size elements in one message"

end Didl
