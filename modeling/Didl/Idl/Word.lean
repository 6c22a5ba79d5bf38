import Didl.Idl.Token

namespace Didl.Idl.Word

def isName (text : String) : Bool :=
  match text.toList with
  | c :: cs => Lexeme.isNameStart c && cs.all Lexeme.isNameChar
  | [] => false

def isDecimal : List Char → Bool
  | d :: ds => Text.isDigit d && ds.all Lexeme.isNumberChar
  | [] => false

/-- A number may have a sign or be in hexadecimal digits, but not both. -/
def isNumeral (text : String) : Bool :=
  match text.toList with
  | '0' :: 'x' :: ds | '0' :: 'X' :: ds => !ds.isEmpty && ds.all Lexeme.isHexChar
  | '+' :: ds | '-' :: ds => isDecimal ds
  | ds => isDecimal ds

def isQuoted (text : String) : Bool :=
  match text.toList with
  | '"' :: cs => cs.getLast? == some '"' && !cs.contains '\n'
  | _ => false

end Didl.Idl.Word
