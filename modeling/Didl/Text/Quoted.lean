import Didl.Text.Printable
import Didl.Fault

namespace Didl.Text

def hexNumber (n : Nat) : String := String.ofList (Nat.toDigits 16 n)

def jsonChar (c : Char) : String :=
  if c == '"' then "\\\""
  else if c == '\\' then "\\\\"
  else if c == '\x08' then "\\b"
  else if c == '\x0c' then "\\f"
  else if c == '\n' then "\\n"
  else if c == '\r' then "\\r"
  else if c == '\t' then "\\t"
  else if c.toNat < 32 then "\\u00" ++ hexByte (UInt8.ofNat c.toNat)
  else c.toString

def quote (s : String) : String :=
  s.toList.foldl (fun out c => out ++ jsonChar c) "\"" ++ "\""

def valueChar (c : Char) : String :=
  if c == '"' then "\\\""
  else if c == '\\' then "\\\\"
  else if c == '\x00' then "\\0"
  else if c == '\n' then "\\n"
  else if c == '\r' then "\\r"
  else if c == '\t' then "\\t"
  else if isShown c then c.toString
  else "\\u\x7b" ++ hexNumber c.toNat ++ "\x7d"

def quoteValue (s : String) : String :=
  s.toList.foldl (fun out c => out ++ valueChar c) "\"" ++ "\""

end Didl.Text
