import Didl.Idl.Escape

namespace Didl.Idl

abbrev TokenReader (α : Type) : Type := StateT (List Token) (Except Failure) α

namespace TokenReader

def nowhere : Token := ⟨"", ⟨0, 0⟩⟩

def front : List Token → Token
  | [] => nowhere
  | t :: _ => t

def behind : List Token → List Token
  | _ :: t :: ts => t :: ts
  | ts => ts

def current : TokenReader Token := return front (← get)

def following : TokenReader Token := return front (behind (← get))

def skip : TokenReader Unit := modify behind

def fail {α : Type} (cause : ParseFault) : TokenReader α := do
  throw (.parse cause (← current).position)

def expected {α : Type} (what : String) : TokenReader α := do
  fail (.expected what (← current).text)

def isAt (text : String) : TokenReader Bool := return (← current).text == text

def eat (text : String) : TokenReader Bool := do
  let found ← isAt text
  if found then skip
  return found

def expect (text : String) : TokenReader Unit := do
  unless ← eat text do expected (Text.quote text)

def eatIf (kind : String → Bool) : TokenReader (Option Token) := do
  let token ← current
  if kind token.text then
    skip
    return some token
  else
    return none

def expectIf (kind : String → Bool) (what : String) : TokenReader Token := do
  match ← eatIf kind with
  | some token => return token
  | none => expected what

/-- Items up to the closing token, with a separator behind each that the last one may lack. Each
item takes a token, so the count of tokens bounds the count of items. -/
def items {α : Type} (item : TokenReader α) (separator closing : String) : Nat → TokenReader (List α)
  | 0 => expected (Text.quote closing)
  | n + 1 => do
    if ← eat closing then
      return []
    let first ← item
    unless ← eat separator do
      unless ← isAt closing do
        expected (Text.quote separator ++ " or " ++ Text.quote closing)
    return first :: (← items item separator closing n)

def enclosed {α : Type} (opening separator closing : String) (item : TokenReader α) :
    TokenReader (List α) := do
  expect opening
  items item separator closing ((← get).length + 1)

end TokenReader
end Didl.Idl
