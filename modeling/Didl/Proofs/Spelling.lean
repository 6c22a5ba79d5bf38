import Didl.Idl.Grammar
import Didl.Proofs.Words

namespace Didl.Idl

/-- Tokens of which the last one alone has no text. It marks the end. -/
inductive Ended : List Token → Prop
  | last {token : Token} : token.text = "" → Ended [token]
  | cons {token : Token} {tokens : List Token} :
      token.text ≠ "" → Ended tokens → Ended (token :: tokens)

instance Ended.decidable : DecidablePred Ended
  | [] => isFalse nofun
  | token :: tokens =>
    if htext : token.text = "" then
      match tokens with
      | [] => isTrue (.last htext)
      | _ :: _ => isFalse fun | .cons hne _ => hne htext
    else
      match decidable tokens with
      | isTrue h => isTrue (.cons htext h)
      | isFalse h => isFalse fun
        | .last hempty => htext hempty
        | .cons _ hrest => h hrest

namespace Grammar
open TokenReader

inductive SpellsName (token : Token) : String → Prop
  | bare : Word.isName token.text = true → SpellsName token token.text
  | quoted {name : String} :
      Word.isQuoted token.text = true → token.unescape = .ok name → SpellsName token name

inductive SpellsLabel (token : Token) : Label → Prop
  | name : Word.isName token.text = true → SpellsLabel token (.name token.text)
  | text {s : String} :
      Word.isQuoted token.text = true → token.unescape = .ok s → SpellsLabel token (.text s)
  | number : Word.isNumeral token.text = true → SpellsLabel token (.number token.text)

/-- Items up to a closing token, with a separator behind each, which may be left out behind the last
one. -/
inductive SpellsItems {α : Type} (item : List Token → α → List Token → Prop)
    (separator closing : String) : List Token → List α → List Token → Prop
  | none {close : Token} {rest : List Token} : close.text = closing →
      SpellsItems item separator closing (close :: rest) [] rest
  | last {ts rest : List Token} {a : α} {close : Token} : item ts a (close :: rest) →
      close.text = closing → SpellsItems item separator closing ts [a] rest
  | cons {ts ts' rest : List Token} {a : α} {as : List α} {sep : Token} : item ts a (sep :: ts') →
      sep.text = separator → SpellsItems item separator closing ts' as rest →
      SpellsItems item separator closing ts (a :: as) rest

inductive SpellsEnclosed {α : Type} (opening separator closing : String)
    (item : List Token → α → List Token → Prop) : List Token → List α → List Token → Prop
  | mk {start : Token} {ts rest : List Token} {as : List α} : start.text = opening →
      SpellsItems item separator closing ts as rest →
      SpellsEnclosed opening separator closing item (start :: ts) as rest

section Nested
variable (type : List Token → TypeExpr → List Token → Prop)

/-- A field takes the place of its first token. A label stands alone if it starts no type, and a
type if it is no name. -/
inductive SpellsField : List Token → FieldExpr TypeExpr → List Token → Prop
  | labelled {token colon : Token} {l : Label} {ts rest : List Token} {e : TypeExpr} :
      SpellsLabel token l → colon.text = ":" → type ts e rest →
      SpellsField (token :: colon :: ts) ⟨some l, some e, token.position⟩ rest
  | label {token : Token} {l : Label} {rest : List Token} :
      SpellsLabel token l → Keyword.startsType token.text = false →
      SpellsField (token :: rest) ⟨some l, none, token.position⟩ rest
  | unlabelled {token : Token} {ts rest : List Token} {e : TypeExpr} :
      type (token :: ts) e rest → (∀ name position, e ≠ .name name position) →
      SpellsField (token :: ts) ⟨none, some e, token.position⟩ rest

inductive SpellsArgument : List Token → ArgExpr TypeExpr → List Token → Prop
  | named {token colon : Token} {name : String} {ts rest : List Token} {e : TypeExpr} :
      SpellsName token name → colon.text = ":" → type ts e rest →
      SpellsArgument (token :: colon :: ts) ⟨some name, e⟩ rest
  | plain {ts rest : List Token} {e : TypeExpr} :
      type ts e rest → SpellsArgument ts ⟨none, e⟩ rest

inductive SpellsModes : List Token → List String → List Token → Prop
  | nil (rest : List Token) : SpellsModes rest [] rest
  | cons {token : Token} {ts rest : List Token} {modes : List String} :
      token.text ∈ Keyword.modes → SpellsModes ts modes rest →
      SpellsModes (token :: ts) (token.text :: modes) rest

inductive SpellsSignature : List Token → Form TypeExpr → List Token → Prop
  | mk {start arrow : Token} {ts ts₁ ts₂ rest : List Token} {args results : List (ArgExpr TypeExpr)}
      {modes : List String} :
      SpellsEnclosed "(" "," ")" (SpellsArgument type) (start :: ts) args (arrow :: ts₁) →
      arrow.text = "->" → SpellsEnclosed "(" "," ")" (SpellsArgument type) ts₁ results ts₂ →
      SpellsModes ts₂ modes rest → SpellsSignature (start :: ts) (.func args results modes) rest

inductive SpellsMethod : List Token → MethodExpr TypeExpr → List Token → Prop
  | signature {token colon : Token} {name : String} {ts rest : List Token} {f : Form TypeExpr} :
      SpellsName token name → colon.text = ":" → SpellsSignature type ts f rest →
      SpellsMethod (token :: colon :: ts) ⟨name, token.position, .form f⟩ rest
  | name {token colon target : Token} {name : String} {rest : List Token} :
      SpellsName token name → colon.text = ":" → Word.isName target.text = true →
      SpellsMethod (token :: colon :: target :: rest) ⟨name, token.position, reference target⟩ rest

end Nested

inductive SpellsType : List Token → TypeExpr → List Token → Prop
  | name {token : Token} {rest : List Token} : Word.isName token.text = true →
      Keyword.startsType token.text = false → SpellsType (token :: rest) (reference token) rest
  | primitive {token : Token} {rest : List Token} : Keyword.isPrimitive token.text = true →
      SpellsType (token :: rest) (.primitive token.text) rest
  | blob {token : Token} {rest : List Token} : token.text = "blob" →
      SpellsType (token :: rest) .blob rest
  | opt {token : Token} {ts rest : List Token} {e : TypeExpr} : token.text = "opt" →
      SpellsType ts e rest → SpellsType (token :: ts) (.form (.opt e)) rest
  | vec {token : Token} {ts rest : List Token} {e : TypeExpr} : token.text = "vec" →
      SpellsType ts e rest → SpellsType (token :: ts) (.form (.vec e)) rest
  | record {token : Token} {ts rest : List Token} {fields : List (FieldExpr TypeExpr)} :
      token.text = "record" →
      SpellsEnclosed "\x7b" ";" "\x7d" (SpellsField SpellsType) ts fields rest →
      SpellsType (token :: ts) (.form (.record fields)) rest
  | variant {token : Token} {ts rest : List Token} {fields : List (FieldExpr TypeExpr)} :
      token.text = "variant" →
      SpellsEnclosed "\x7b" ";" "\x7d" (SpellsField SpellsType) ts fields rest →
      SpellsType (token :: ts) (.form (.variant fields)) rest
  | func {token : Token} {ts rest : List Token} {f : Form TypeExpr} : token.text = "func" →
      SpellsSignature SpellsType ts f rest → SpellsType (token :: ts) (.form f) rest
  | service {token : Token} {ts rest : List Token} {methods : List (MethodExpr TypeExpr)} :
      token.text = "service" →
      SpellsEnclosed "\x7b" ";" "\x7d" (SpellsMethod SpellsType) ts methods rest →
      SpellsType (token :: ts) (.form (.service methods)) rest

inductive SpellsOptional (text : String) : List Token → List Token → Prop
  | absent (rest : List Token) : SpellsOptional text rest rest
  | present {token : Token} {rest : List Token} :
      token.text = text → SpellsOptional text (token :: rest) rest

/-- Imports and definitions, each kind in its order, and either kind between those of the other. -/
inductive SpellsDeclarations : List Token → List Import → List Definition → List Token → Prop
  | nil (rest : List Token) : SpellsDeclarations rest [] [] rest
  | definition {word name equals : Token} {ts ts₁ ts₂ rest : List Token} {body : TypeExpr}
      {imports : List Import} {definitions : List Definition} : word.text = "type" →
      Word.isName name.text = true → equals.text = "=" → SpellsType ts body ts₁ →
      SpellsOptional ";" ts₁ ts₂ → SpellsDeclarations ts₂ imports definitions rest →
      SpellsDeclarations (word :: name :: equals :: ts) imports
        (⟨name.text, name.position, body⟩ :: definitions) rest
  | import {word quoted : Token} {path : String} {ts ts₁ rest : List Token} {imports : List Import}
      {definitions : List Definition} : word.text = "import" →
      Word.isQuoted quoted.text = true → quoted.unescape = .ok path → SpellsOptional ";" ts ts₁ →
      SpellsDeclarations ts₁ imports definitions rest →
      SpellsDeclarations (word :: quoted :: ts) (⟨path, word.position⟩ :: imports) definitions rest

inductive SpellsInit : List Token → Option (List (ArgExpr TypeExpr)) → List Token → Prop
  | none (rest : List Token) : SpellsInit rest none rest
  | some {ts rest : List Token} {args : List (ArgExpr TypeExpr)} {arrow : Token} :
      SpellsEnclosed "(" "," ")" (SpellsArgument SpellsType) ts args (arrow :: rest) →
      arrow.text = "->" → SpellsInit ts (some args) rest

inductive SpellsBody : List Token → TypeExpr → List Token → Prop
  | methods {ts rest : List Token} {methods : List (MethodExpr TypeExpr)} :
      SpellsEnclosed "\x7b" ";" "\x7d" (SpellsMethod SpellsType) ts methods rest →
      SpellsBody ts (.form (.service methods)) rest
  | name {token : Token} {rest : List Token} : Word.isName token.text = true →
      SpellsBody (token :: rest) (reference token) rest

inductive SpellsServiceName : List Token → Option String → List Token → Prop
  | none (rest : List Token) : SpellsServiceName rest none rest
  | some {token : Token} {rest : List Token} : Word.isName token.text = true →
      SpellsServiceName (token :: rest) (some token.text) rest

inductive SpellsService : List Token → Actor → List Token → Prop
  | mk {word colon : Token} {name : Option String} {init : Option (List (ArgExpr TypeExpr))}
      {body : TypeExpr} {ts ts₁ ts₂ rest : List Token} : word.text = "service" →
      SpellsServiceName ts name (colon :: ts₁) → colon.text = ":" → SpellsInit ts₁ init ts₂ →
      SpellsBody ts₂ body rest → SpellsService (word :: ts) ⟨name, word.position, init, body⟩ rest

inductive SpellsActor : List Token → Option Actor → List Token → Prop
  | none (rest : List Token) : SpellsActor rest none rest
  | some {actor : Actor} {ts ts' rest : List Token} : SpellsService ts actor ts' →
      SpellsOptional ";" ts' rest → SpellsActor ts (some actor) rest

/-- A program and the token that marks the end. -/
inductive SpellsProgram : List Token → Program → Prop
  | mk {ts ts₁ : List Token} {last : Token} {imports : List Import} {definitions : List Definition}
      {actor : Option Actor} : SpellsDeclarations ts imports definitions ts₁ →
      SpellsActor ts₁ actor [last] → last.text = "" →
      SpellsProgram ts ⟨imports, definitions, actor⟩

namespace SpellsType
variable {token next : Token} {ts rest : List Token} {e : TypeExpr}

theorem isName_front (h : SpellsType ts e rest) : Word.isName (front ts).text = true := by
  cases h with
  | name hname => exact hname
  | primitive hprim =>
    exact Keyword.isName_of_startsType (Bool.or_eq_true_iff.mpr (.inr hprim))
  | blob hword | opt hword | vec hword | record hword | variant hword | func hword
  | service hword =>
    rw [front, hword]
    decide

theorem startsType_front (h : SpellsType ts e rest)
    (hname : ∀ name position, e ≠ .name name position) : Keyword.startsType (front ts).text = true := by
  cases h with
  | name => exact absurd rfl (hname _ _)
  | primitive hprim => exact Bool.or_eq_true_iff.mpr (.inr hprim)
  | blob hword | opt hword | vec hword | record hword | variant hword | func hword
  | service hword =>
    rw [front, hword]
    decide

/-- No type has a colon behind its first token. -/
theorem eq_of_colon (h : SpellsType (token :: next :: ts) e rest) (hcolon : next.text = ":") :
    rest = next :: ts := by
  have hnext : ¬ Word.isName next.text = true := by
    rw [hcolon]
    decide
  have hopening : next.text ≠ "\x7b" ∧ next.text ≠ "(" := by
    rw [hcolon]
    decide
  cases h with
  | name | primitive | blob => rfl
  | opt _ he | vec _ he => exact absurd he.isName_front hnext
  | record _ hfields | variant _ hfields =>
    obtain ⟨hstart, _⟩ := hfields
    exact absurd hstart hopening.1
  | func _ hsignature =>
    obtain ⟨⟨hstart, _⟩, _⟩ := hsignature
    exact absurd hstart hopening.2
  | service _ hmethods =>
    obtain ⟨hstart, _⟩ := hmethods
    exact absurd hstart hopening.1

end SpellsType

end Grammar
end Didl.Idl
