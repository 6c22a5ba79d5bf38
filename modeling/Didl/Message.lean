import Didl.Prelude.Basic
import Didl.Table.Closure
import Didl.Table.Equivalence
import Didl.Value.Decode

namespace Didl.Message

def argumentsText (count : Nat) : String := s!"{count} arguments"

def tableFor (env : Table) (types : List Ty) : Except Fault (List Int × Table) := do
  let named ← types.foldlM (fun table type =>
    match env.copyLabels type table with
    | (none, table) => .ok table
    | (some e, _) => .error e) {}
  let (codes, table) ← types.foldlM (fun (codes, table) type => do
    let (code, table) ← table.register type
    pure (code :: codes, table)) (([] : List Int), named)
  pure (codes.reverse, table)

def writeAll (table : Table) : List (Ty × Value) → Writer
  | [] => pure ()
  | (type, v) :: rest => do
    v.write table type
    writeAll table rest

def encode (env : Table) (types : List Ty) (values : List Value) : Except Fault (List UInt8) := do
  if types.length ≠ values.length then
    throw (.mismatch (argumentsText types.length) s!"{values.length} values")
  let (codes, table) ← tableFor env types
  let prelude ← table.preludeBytes codes
  let args := types.zip values
  args.forM fun (type, v) => do let _ ← v.size table type
  match writeAll table args prelude.toArray with
  | (.ok (), bytes) => .ok bytes.toList
  | (.error e, _) => .error e

def readAll (table : Table) : List Ty → Value.Decode (List (Ty × Value))
  | [], allowance => pure ([], allowance)
  | type :: types, allowance => do
    let (v, allowance) ← Value.read table (maxDepth + 1) type allowance
    let (rest, allowance) ← readAll table types allowance
    pure ((type, v) :: rest, allowance)

def reader : Reader (Table × List (Ty × Value)) := do
  let (table, types) ← Table.readPrelude
  let (args, _) ← readAll table types maxZeroSized
  pure (table, args)

def decodeWithTable (bytes : List UInt8) : Except Fault (Table × List (Ty × Value)) :=
  match reader bytes with
  | (.ok message, []) => .ok message
  | (.ok _, rest) => .error (.trailingBytes rest.length)
  | (.error e, _) => .error e

def decode (bytes : List UInt8) : Except Fault (List (Ty × Value)) :=
  (decodeWithTable bytes).map Prod.snd

/-- Admits values whose own types agree with the expected ones. What is expected to be reserved
may have any type and is forgotten. -/
def expectAll (env table : Table) :
    List ((Ty × Value) × Ty) → ExceptT Fault Option (List Value)
  | [] => pure []
  | ((type, v), expected) :: rest => do
    if (← (env.follow expected : Except Fault Head)).isPrim .reserved then
      return .reserved :: (← expectAll env table rest)
    if ← ExceptT.mk (env.equivalent expected table type) then
      return v :: (← expectAll env table rest)
    else throw (.mismatch expected.text type.text)

/-- The arguments of a message that are expected to have given types: values, a fault, or nothing
if the comparison of types has no end. -/
def decodeAs (env : Table) (expected : List Ty) (bytes : List UInt8) :
    Option (Except Fault (List Value)) :=
  ExceptT.run do
    let (table, args) ← (decodeWithTable bytes : Except Fault _)
    if args.length ≠ expected.length then
      throw (.mismatch (argumentsText expected.length) (argumentsText args.length))
    expectAll env table (args.zip expected)

end Didl.Message
