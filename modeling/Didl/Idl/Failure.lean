import Didl.Idl.Source
import Didl.Fault
import Didl.Text.Quoted

namespace Didl.Idl

inductive TextFault where
  | unterminated
  | badEscape
  | badUnicodeEscape
  | notUtf8
  deriving DecidableEq, Repr

/-- What is wrong with the words of a source. A token is given by its text, the end by none. -/
inductive ParseFault where
  | stray (text : String)
  | expected (what token : String)
  | unexpected (token : String)
  | badText (cause : TextFault) (token : String)
  deriving DecidableEq, Repr

inductive CompileFault where
  | reservedName (name : String) (position : Position)
  | definedTwice (name : String) (position : Position)
  | undefinedAt (name : String) (position : Position)
  | undefined (name : String)
  | recursiveNesting (name : String)
  | repeatedId (id : UInt32) (position : Position)
  | badFieldId (digits : String) (position : Position)
  | fieldWithoutType (position : Position)
  | tooManyFields (position : Position)
  | repeatedMode (mode : String)
  | conflictingModes (modes : List String)
  | onewayResults
  | unknownMode (mode : String)
  | unknownPrimitive (keyword : String)
  | repeatedMethod (name : String) (position : Position)
  | methodNotFunction (method type : String)
  | actorNotService (type : String)
  | noService
  | notService
  | noMethod (name : String)
  | methodOfType (name type : String)
  deriving DecidableEq, Repr

inductive ImportFault where
  | noLoader (path : String)
  | notLoaded (path : String)
  | notFound (path : String)
  | cycle (paths : List String)
  | unending
  deriving DecidableEq, Repr

inductive Failure where
  | io
  | parse (cause : ParseFault) (position : Position)
  | compile (cause : CompileFault)
  | imports (cause : ImportFault)
  | wire (cause : Fault)
  deriving DecidableEq, Repr

open Text (quote)

def TextFault.message : TextFault → String
  | .unterminated => "Unterminated text"
  | .badEscape => "Invalid escape"
  | .badUnicodeEscape => "Invalid unicode escape"
  | .notUtf8 => "Invalid UTF-8"

def ParseFault.message : ParseFault → String
  | .stray text => "Syntax error: " ++ quote text
  | .expected what token =>
    "Expected " ++ what ++ " but found " ++ (if token.isEmpty then "end of input" else quote token)
  | .unexpected token => "Unexpected token " ++ quote token
  | .badText cause token => cause.message ++ " in " ++ token

def Position.words (p : Position) : String := s!"line {p.line}, column {p.column}"

def Position.aside (p : Position) : String := " (" ++ p.words ++ ")"

def CompileFault.message : CompileFault → String
  | .reservedName name p => "The type name " ++ quote name ++ " is reserved" ++ p.aside
  | .definedTwice name p => "The type " ++ quote name ++ " is defined twice" ++ p.aside
  | .undefinedAt name p => "The type " ++ quote name ++ " is not defined" ++ p.aside
  | .undefined name => "The type " ++ quote name ++ " is not defined"
  | .recursiveNesting name => "Recursive nesting of " ++ quote name ++ " is not allowed"
  | .repeatedId id p => s!"The id {id} is used twice" ++ p.aside
  | .badFieldId digits p => "The field id " ++ digits ++ " is not a 32-bit natural" ++ p.aside
  | .fieldWithoutType p => "The field at " ++ p.words ++ " needs a type"
  | .tooManyFields p => "Too many positional fields" ++ p.aside
  | .repeatedMode mode => "The annotation " ++ quote mode ++ " is repeated"
  | .conflictingModes modes => "A function cannot be both " ++ " and ".intercalate modes
  | .onewayResults => "A oneway function cannot return results"
  | .unknownMode mode => "Unknown annotation " ++ quote mode
  | .unknownPrimitive keyword => "Unknown primitive " ++ quote keyword
  | .repeatedMethod name p => "The method " ++ quote name ++ " is defined twice" ++ p.aside
  | .methodNotFunction method type =>
    "The method " ++ quote method ++ " must have a function type, but " ++ quote type ++ " is not one"
  | .actorNotService type =>
    "The actor must have a service type, but " ++ quote type ++ " is not one"
  | .noService => "The file does not declare a service"
  | .notService => "The actor is not a service"
  | .noMethod name => "The service has no method " ++ quote name
  | .methodOfType name type => "The method " ++ quote name ++ " has type " ++ type

def ImportFault.message : ImportFault → String
  | .noLoader path => "No loader available for " ++ quote path
  | .notLoaded path => path
  | .notFound path => "Cannot find " ++ path
  | .cycle paths => "Import cycle: " ++ " -> ".intercalate paths
  | .unending => "Imports have no end"

def Failure.message : Failure → String
  | .io => "I/O error"
  | .parse cause p => "Parse error at " ++ p.words ++ ": " ++ cause.message
  | .compile cause => "Compile error: " ++ cause.message
  | .imports cause => "Import error: " ++ cause.message
  | .wire cause => "Wire error: " ++ cause.message

end Didl.Idl
