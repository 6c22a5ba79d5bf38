import Didl.Idl.Keyword
import Didl.Idl.TokenReader
import Didl.Idl.Word

namespace Didl.Idl.Grammar

open TokenReader

def reference (token : Token) : TypeExpr := .name token.text token.position

def label : TokenReader (Option Label) := do
  let token ← current
  if Word.isName token.text then
    skip
    return some (.name token.text)
  else if Word.isQuoted token.text then
    let text ← token.unescape
    skip
    return some (.text text)
  else if Word.isNumeral token.text then
    skip
    return some (.number token.text)
  else
    return none

section Nested
variable (type : TokenReader TypeExpr)

/-- A field is a label and a type with a colon between them, or one of them alone. A word that
starts a type is no label by itself. -/
def field : TokenReader (FieldExpr TypeExpr) := do
  let token ← current
  let next := (← following).text
  if next = ":" then
    match ← label with
    | none => expected "field name or id"
    | some l =>
      expect ":"
      return ⟨some l, some (← type), token.position⟩
  else if (next = ";" ∨ next = "\x7d") ∧ !Keyword.startsType token.text then
    match ← label with
    | some l => return ⟨some l, none, token.position⟩
    | none => return ⟨none, some (← type), token.position⟩
  else
    return ⟨none, some (← type), token.position⟩

def fields : TokenReader (List (FieldExpr TypeExpr)) :=
  enclosed "\x7b" ";" "\x7d" (field type)

def argumentName : TokenReader (Option String) := do
  let token ← current
  if (← following).text = ":" then
    if Word.isQuoted token.text then
      let name ← token.unescape
      skip
      skip
      return some name
    else if Word.isName token.text then
      skip
      skip
      return some token.text
    else
      return none
  else
    return none

def argument : TokenReader (ArgExpr TypeExpr) := do
  let name ← argumentName
  return ⟨name, ← type⟩

def arguments : TokenReader (List (ArgExpr TypeExpr)) :=
  enclosed "(" "," ")" (argument type)

def splitModes : List Token → List String × List Token
  | [] => ([], [])
  | token :: tokens =>
    if Keyword.modes.contains token.text then
      let (modes, rest) := splitModes tokens
      (token.text :: modes, rest)
    else ([], token :: tokens)

def signature : TokenReader (Form TypeExpr) := do
  let args ← arguments type
  expect "->"
  let results ← arguments type
  let modes ← modifyGet splitModes
  return .func args results modes

def methodName : TokenReader String := do
  let token ← current
  if Word.isName token.text then
    skip
    return token.text
  else if Word.isQuoted token.text then
    let name ← token.unescape
    skip
    return name
  else
    expected "method name"

def method : TokenReader (MethodExpr TypeExpr) := do
  let token ← current
  let name ← methodName
  expect ":"
  if ← isAt "(" then
    return ⟨name, token.position, .form (← signature type)⟩
  else
    let target ← expectIf Word.isName "function signature or function type name"
    return ⟨name, token.position, reference target⟩

def methods : TokenReader (List (MethodExpr TypeExpr)) :=
  enclosed "\x7b" ";" "\x7d" (method type)

def afterFormer (word : String) : TokenReader TypeExpr :=
  match word with
  | "opt" => return .form (.opt (← type))
  | "vec" => return .form (.vec (← type))
  | "record" => return .form (.record (← fields type))
  | "variant" => return .form (.variant (← fields type))
  | "func" => return .form (← signature type)
  | "service" => return .form (.service (← methods type))
  | "blob" => return .blob
  | word => return .primitive word

def typeOver : TokenReader TypeExpr := do
  let token ← current
  if Keyword.startsType token.text then
    skip
    afterFormer type token.text
  else
    return reference (← expectIf Word.isName "type")

end Nested

/-- Types within `n` levels are read with the rules over the types within `n - 1`. Each level takes
a token, so the count of tokens is enough levels. -/
def typeWithin : Nat → TokenReader TypeExpr
  | 0 => expected "type"
  | n + 1 => typeOver (typeWithin n)

def type : TokenReader TypeExpr := do
  typeWithin (← get).length

def declarations : Nat → TokenReader (List Import × List Definition)
  | 0 => return ([], [])
  | n + 1 => do
    let token ← current
    if ← eat "type" then
      let name ← expectIf Word.isName "identifier"
      expect "="
      let body ← type
      let _ ← eat ";"
      let (imports, definitions) ← declarations n
      return (imports, ⟨name.text, name.position, body⟩ :: definitions)
    else if ← eat "import" then
      let path ← (← expectIf Word.isQuoted "quoted path").unescape
      let _ ← eat ";"
      let (imports, definitions) ← declarations n
      return (⟨path, token.position⟩ :: imports, definitions)
    else
      return ([], [])

def init : TokenReader (Option (List (ArgExpr TypeExpr))) := do
  if ← isAt "(" then
    let args ← arguments type
    expect "->"
    return some args
  else
    return none

def actor : TokenReader Actor := do
  let token ← current
  expect "service"
  let name ← eatIf Word.isName
  expect ":"
  let init ← init
  if ← isAt "\x7b" then
    return ⟨name.map (·.text), token.position, init, .form (.service (← methods type))⟩
  else
    let target ← expectIf Word.isName "service body or service name"
    return ⟨name.map (·.text), token.position, init, reference target⟩

def actor? : TokenReader (Option Actor) := do
  if ← isAt "service" then
    let found ← actor
    let _ ← eat ";"
    return some found
  else
    return none

def program : TokenReader Program := do
  let (imports, definitions) ← declarations (← get).length
  let actor ← actor?
  let token ← current
  if token.text = "" then
    return ⟨imports, definitions, actor⟩
  else
    fail (.unexpected token.text)

end Grammar

namespace Program

def ofTokens (tokens : List Token) : Except Failure Program := Grammar.program.run' tokens

def ofSource (source : String) : Except Failure Program := do ofTokens (← Token.split source)

end Program
end Didl.Idl
