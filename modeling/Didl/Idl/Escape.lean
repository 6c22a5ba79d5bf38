import Didl.Idl.Token

namespace Didl.Idl

def hexDigitValue? (c : Char) : Option Nat :=
  if '0' ≤ c ∧ c ≤ '9' then some (c.toNat - 48)
  else if 'a' ≤ c ∧ c ≤ 'f' then some (c.toNat - 87)
  else if 'A' ≤ c ∧ c ≤ 'F' then some (c.toNat - 55)
  else none

def digitsValue? (base : Nat) (digits : List Char) : Option Nat :=
  digits.foldlM (fun n c => do
    let d ← hexDigitValue? c
    if d < base then some (base * n + d) else none) 0

/-- The natural number that a text writes in a base; a plus sign may stand in front. -/
def naturalOf? (base : Nat) (text : List Char) : Option Nat :=
  let digits := match text with
    | '+' :: digits => digits
    | digits => digits
  if digits.isEmpty then none else digitsValue? base digits

def scalarOf? (n : Nat) : Option Char :=
  if h : n.isValidChar then some (Char.ofNatAux n h) else none

namespace Escape

def ofLetter? : Char → Option UInt8
  | 'n' => some 10
  | 'r' => some 13
  | 't' => some 9
  | '\\' => some 92
  | '"' => some 34
  | '\'' => some 39
  | _ => none

/-- The bytes that a text stands for; those done so far are held in reverse. Where a number in
braces is not closed, it goes to the end. -/
def bytes (done : List UInt8) (cs : List Char) : Except TextFault (List UInt8) :=
  match cs with
  | [] => .ok done.reverse
  | '\\' :: 'u' :: '{' :: rest =>
    let digits := rest.takeWhile (· != '}')
    match (naturalOf? 16 digits).bind scalarOf? with
    | some c =>
      bytes ((String.utf8EncodeChar c).reverse ++ done) (rest.drop (digits.length + 1))
    | none => .error .badUnicodeEscape
  | '\\' :: 'u' :: _ => .error .badUnicodeEscape
  | '\\' :: c :: rest =>
    match ofLetter? c with
    | some b => bytes (b :: done) rest
    | none =>
      match rest with
      | [] => .error .badEscape
      | low :: rest =>
        match naturalOf? 16 [c, low] with
        | some n => bytes (UInt8.ofNat n :: done) rest
        | none => .error .badEscape
  | ['\\'] => .error .badEscape
  | c :: rest => bytes ((String.utf8EncodeChar c).reverse ++ done) rest
termination_by cs.length
decreasing_by all_goals simp only [List.length_drop, List.length_cons]; omega

def inside? (text : List Char) : Option (List Char) :=
  match text with
  | '"' :: rest => if rest.getLast? = some '"' then some rest.dropLast else none
  | _ => none

def decode (quoted : String) : Except TextFault String :=
  match inside? quoted.toList with
  | none => .error .unterminated
  | some cs => do
    match String.fromUTF8? (← bytes [] cs).toByteArray with
    | some s => .ok s
    | none => .error .notUtf8

end Escape

def Token.unescape (t : Token) : Except Failure String :=
  match Escape.decode t.text with
  | .ok s => .ok s
  | .error cause => .error (.parse (.badText cause t.text) t.position)

end Didl.Idl
