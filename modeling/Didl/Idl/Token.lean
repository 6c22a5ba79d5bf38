import Didl.Idl.Failure
import Didl.Text.WordChar

namespace Didl.Idl

structure Token where
  text : String
  position : Position
  deriving DecidableEq, Repr

namespace Lexeme

open Text (isBlank isDigit isWordChar)

def endsWord : List Char → Bool
  | [] => true
  | c :: _ => !isWordChar c

def upToWordEnd (cs : List Char) (length : Nat) : Nat :=
  if endsWord (cs.drop length) then length else 0

def isNameStart (c : Char) : Bool := c.isAlpha || c == '_'

def isNameChar (c : Char) : Bool := c.isAlphanum || c == '_'

def isHexChar (c : Char) : Bool :=
  c.isDigit || ('a' ≤ c && c ≤ 'f') || ('A' ≤ c && c ≤ 'F') || c == '_'

def isNumberChar (c : Char) : Bool := c.isDigit || c == '_'

def blockEnd (count : Nat) : List Char → Nat
  | '*' :: '/' :: _ => count + 2
  | _ :: cs => blockEnd (count + 1) cs
  | [] => 0

/-- The count up to and with the closing quote, from `count` on. A backslash takes any character
but a new line with it. -/
def textEnd (count : Nat) : List Char → Nat
  | '"' :: _ => count + 1
  | '\\' :: '\n' :: _ => 0
  | '\\' :: _ :: cs => textEnd (count + 2) cs
  | ['\\'] => 0
  | _ :: cs => textEnd (count + 1) cs
  | [] => 0

def blockComment : List Char → Nat
  | '/' :: '*' :: cs => blockEnd 2 cs
  | _ => 0

def lineComment : List Char → Nat
  | '/' :: '/' :: cs => 2 + (cs.takeWhile (· != '\n')).length
  | _ => 0

def blanks (cs : List Char) : Nat := (cs.takeWhile isBlank).length

def hexNumber (cs : List Char) : Nat :=
  match cs with
  | '0' :: x :: digits =>
    if x == 'x' || x == 'X' then
      match (digits.takeWhile isHexChar).length with
      | 0 => 0
      | count => upToWordEnd cs (2 + count)
    else 0
  | _ => 0

/-- Digits from `start` on; the first may be any decimal digit. -/
def digitsFrom (cs : List Char) (start : Nat) : Nat :=
  match cs.drop start with
  | d :: rest =>
    if isDigit d then upToWordEnd cs (start + 1 + (rest.takeWhile isNumberChar).length) else 0
  | [] => 0

def number (cs : List Char) : Nat :=
  match cs with
  | c :: _ => digitsFrom cs (if c == '+' || c == '-' then 1 else 0)
  | [] => 0

def quoted : List Char → Nat
  | '"' :: cs => textEnd 1 cs
  | _ => 0

def arrow : List Char → Nat
  | '-' :: '>' :: _ => 2
  | _ => 0

def punctuation : List Char → Nat
  | c :: _ => if ['=', ';', ':', ',', '(', ')', '{', '}'].contains c then 1 else 0
  | [] => 0

def name (before : Option Char) (cs : List Char) : Nat :=
  match cs with
  | c :: rest =>
    if isNameStart c && !(before.any isWordChar) then
      upToWordEnd cs (1 + (rest.takeWhile isNameChar).length)
    else 0
  | [] => 0

def firstOf (lengths : List Nat) : Nat := (lengths.find? (· != 0)).getD 0

/-- The length of the lexeme at the front; zero if there is none. The kinds of lexeme are tried in a
fixed order and the first one that matches is taken, be it long or short. -/
def length (before : Option Char) (cs : List Char) : Nat :=
  firstOf [blockComment cs, lineComment cs, blanks cs, hexNumber cs, number cs, quoted cs,
    arrow cs, punctuation cs, name before cs]

def isSkipped : List Char → Bool
  | '/' :: _ => true
  | c :: _ => isBlank c
  | [] => false

def stray (before : Option Char) : List Char → List Char
  | [] => []
  | c :: cs => if length before (c :: cs) = 0 then c :: stray (some c) cs else []

end Lexeme

namespace Token

def scan (before : Option Char) (position : Position) (done : List Token) (cs : List Char) :
    Except Failure (List Token) :=
  match cs with
  | [] => .ok (⟨"", position⟩ :: done).reverse
  | c :: rest =>
    let count := Lexeme.length before (c :: rest)
    if count = 0 then
      .error (.parse (.stray (String.ofList (Lexeme.stray before (c :: rest)))) position)
    else
      let lexeme := (c :: rest).take count
      let done :=
        if Lexeme.isSkipped lexeme then done else ⟨String.ofList lexeme, position⟩ :: done
      scan lexeme.getLast? (position.advance lexeme) done ((c :: rest).drop count)
termination_by cs.length
decreasing_by
  simp only [List.length_drop, List.length_cons]
  omega

/-- The tokens of a source. The last one is empty and marks the end. -/
def split (source : String) : Except Failure (List Token) :=
  scan none ⟨1, 1⟩ [] source.toList

end Token

end Didl.Idl
