import Didl.Idl.Grammar

namespace Didl.Idl

namespace TokenReader
variable {α β : Type}

/-- A reader ends with a failure or with the tokens that it leaves. -/
abbrev Course : Type := List Token → Except Failure (List Token) → Prop

class Course.Closed (P : Course) : Prop where
  stay (tokens : List Token) : P tokens (.ok tokens)
  skip (tokens : List Token) : P tokens (.ok (behind tokens))
  modes (tokens : List Token) : P tokens (.ok (Grammar.splitModes tokens).2)
  fault (tokens : List Token) (cause : ParseFault) (position : Position) :
    P tokens (.error (.parse cause position))
  trans {tokens mid : List Token} {outcome : Except Failure (List Token)} :
    P tokens (.ok mid) → P mid outcome → P tokens outcome

def Takes (P : Course) (r : TokenReader α) : Prop :=
  ∀ tokens, P tokens ((r tokens).map Prod.snd)

namespace Takes
variable {P : Course} [P.Closed] {x : TokenReader α} {f : α → TokenReader β}

theorem of_ok {r : TokenReader α} {g : List Token → α}
    (h : ∀ tokens, r tokens = .ok (g tokens, tokens)) : Takes P r := by
  intro tokens
  rw [h]
  exact Course.Closed.stay tokens

theorem pure (a : α) : Takes P (Pure.pure a : TokenReader α) := of_ok fun _ => rfl

theorem get : Takes P (MonadState.get : TokenReader (List Token)) := of_ok fun _ => rfl

theorem current : Takes P TokenReader.current := of_ok fun _ => rfl

theorem following : Takes P TokenReader.following := of_ok fun _ => rfl

theorem isAt (text : String) : Takes P (TokenReader.isAt text) := of_ok fun _ => rfl

theorem skip : Takes P TokenReader.skip := Course.Closed.skip

theorem fail (cause : ParseFault) : Takes P (TokenReader.fail cause : TokenReader α) :=
  fun tokens => Course.Closed.fault tokens cause (front tokens).position

theorem expected (what : String) : Takes P (TokenReader.expected what : TokenReader α) :=
  fun tokens => Course.Closed.fault tokens _ (front tokens).position

theorem unescape (token : Token) : Takes P (liftM token.unescape : TokenReader String) := by
  intro tokens
  change P tokens (((token.unescape).bind fun s => .ok (s, tokens)).map Prod.snd)
  unfold Token.unescape
  split
  · exact Course.Closed.stay tokens
  · exact Course.Closed.fault tokens _ _

theorem bind (hx : Takes P x) (hf : ∀ a, Takes P (f a)) : Takes P (x >>= f) := by
  intro tokens
  have hfirst := hx tokens
  simp only [Bind.bind, StateT.bind, Except.bind]
  cases hr : x tokens with
  | error e => rwa [hr] at hfirst
  | ok r =>
    rw [hr] at hfirst
    exact Course.Closed.trans hfirst (hf r.1 r.2)

omit [P.Closed] in
theorem ite {c : Prop} [Decidable c] {x y : TokenReader α} (hx : Takes P x) (hy : Takes P y) :
    Takes P (if c then x else y) := by
  split
  · exact hx
  · exact hy

theorem eat (text : String) : Takes P (TokenReader.eat text) :=
  (isAt text).bind fun _ => .ite (skip.bind fun _ => pure _) (pure _)

theorem expect (text : String) : Takes P (TokenReader.expect text) :=
  (eat text).bind fun _ => .ite (pure _) (expected _)

theorem eatIf (kind : String → Bool) : Takes P (TokenReader.eatIf kind) :=
  current.bind fun _ => .ite (skip.bind fun _ => pure _) (pure _)

theorem expectIf (kind : String → Bool) (what : String) :
    Takes P (TokenReader.expectIf kind what) := by
  refine (eatIf kind).bind fun found => ?_
  cases found with
  | none => exact expected _
  | some token => exact pure _

theorem items {item : TokenReader α} (h : Takes P item) (separator closing : String) (n : Nat) :
    Takes P (TokenReader.items item separator closing n) := by
  induction n with
  | zero => exact expected _
  | succ n ih =>
    refine (eat closing).bind fun _ => .ite (pure _) (h.bind fun _ => (eat separator).bind fun _ => ?_)
    have hrest : ∀ first, Takes P (do
        return first :: (← TokenReader.items item separator closing n)) :=
      fun _ => ih.bind fun _ => pure _
    exact .ite (hrest _) ((isAt closing).bind fun _ =>
      .ite (hrest _) ((expected _).bind fun _ => hrest _))

theorem enclosed {item : TokenReader α} (h : Takes P item) (opening separator closing : String) :
    Takes P (TokenReader.enclosed opening separator closing item) :=
  (expect opening).bind fun _ => get.bind fun _ => h.items _ _ _

end Takes

end TokenReader

namespace Grammar
open TokenReader
variable {P : Course} [P.Closed]

theorem label_takes : Takes P label :=
  .bind .current fun token => .ite (.bind .skip fun _ => .pure _)
    (.ite (.bind (.unescape token) fun _ => .bind .skip fun _ => .pure _)
      (.ite (.bind .skip fun _ => .pure _) (.pure _)))

section Nested
variable {type : TokenReader TypeExpr} (h : Takes P type)
include h

theorem field_takes : Takes P (field type) := by
  refine .bind .current fun token => .bind .following fun next =>
    .ite (.bind label_takes fun found => ?_)
      (.ite (.bind label_takes fun found => ?_) (h.bind fun _ => .pure _))
  · cases found with
    | none => exact .expected _
    | some l => exact .bind (.expect _) fun _ => h.bind fun _ => .pure _
  · cases found with
    | none => exact h.bind fun _ => .pure _
    | some l => exact .pure _

theorem argument_takes : Takes P (argument type) := by
  have hname : Takes P argumentName :=
    .bind .current fun token => .bind .following fun _ => .ite
      (.ite (.bind (.unescape token) fun _ => .bind .skip fun _ => .bind .skip fun _ => .pure _)
        (.ite (.bind .skip fun _ => .bind .skip fun _ => .pure _) (.pure _))) (.pure _)
  exact hname.bind fun _ => h.bind fun _ => .pure _

theorem arguments_takes : Takes P (arguments type) := (argument_takes h).enclosed _ _ _

theorem signature_takes : Takes P (signature type) := by
  have hmodes : Takes P (modifyGet splitModes : TokenReader (List String)) := Course.Closed.modes
  exact (arguments_takes h).bind fun _ => .bind (.expect _) fun _ =>
    (arguments_takes h).bind fun _ => .bind hmodes fun _ => .pure _

theorem method_takes : Takes P (method type) := by
  have hname : Takes P methodName :=
    .bind .current fun token => .ite (.bind .skip fun _ => .pure _)
      (.ite (.bind (.unescape token) fun _ => .bind .skip fun _ => .pure _) (.expected _))
  exact .bind .current fun _ => hname.bind fun _ => .bind (.expect _) fun _ =>
    .bind (.isAt _) fun _ => .ite ((signature_takes h).bind fun _ => .pure _)
      (.bind (.expectIf _ _) fun _ => .pure _)

theorem methods_takes : Takes P (methods type) := (method_takes h).enclosed _ _ _

theorem typeOver_takes : Takes P (typeOver type) := by
  refine .bind .current fun token => .ite (.bind .skip fun _ => ?_)
    (.bind (.expectIf _ _) fun _ => .pure _)
  unfold afterFormer
  split
  · exact h.bind fun _ => .pure _
  · exact h.bind fun _ => .pure _
  · exact ((field_takes h).enclosed _ _ _).bind fun _ => .pure _
  · exact ((field_takes h).enclosed _ _ _).bind fun _ => .pure _
  · exact (signature_takes h).bind fun _ => .pure _
  · exact (methods_takes h).bind fun _ => .pure _
  · exact .pure _
  · exact .pure _

end Nested

theorem typeWithin_takes (n : Nat) : Takes P (typeWithin n) := by
  induction n with
  | zero => exact .expected _
  | succ n ih => exact typeOver_takes ih

theorem type_takes : Takes P Grammar.type := .bind .get fun _ => typeWithin_takes _

theorem declarations_takes (n : Nat) : Takes P (declarations n) := by
  induction n with
  | zero => exact .pure _
  | succ n ih =>
    refine .bind .current fun _ => .bind (.eat _) fun _ => .ite ?_
      (.bind (.eat _) fun _ => .ite ?_ (.pure _))
    · exact .bind (.expectIf _ _) fun _ => .bind (.expect _) fun _ => type_takes.bind fun _ =>
        .bind (.eat _) fun _ => ih.bind fun _ => .pure _
    · exact .bind (.expectIf _ _) fun _ => .bind (.unescape _) fun _ => .bind (.eat _) fun _ =>
        ih.bind fun _ => .pure _

theorem init_takes : Takes P Grammar.init :=
  .bind (.isAt _) fun _ => .ite ((arguments_takes type_takes).bind fun _ =>
    .bind (.expect _) fun _ => .pure _) (.pure _)

theorem actor_takes : Takes P actor :=
  .bind .current fun _ => .bind (.expect _) fun _ => .bind (.eatIf _) fun _ =>
    .bind (.expect _) fun _ => init_takes.bind fun _ => .bind (.isAt _) fun _ =>
      .ite ((methods_takes type_takes).bind fun _ => .pure _)
        (.bind (.expectIf _ _) fun _ => .pure _)

theorem actor?_takes : Takes P actor? :=
  .bind (.isAt _) fun _ => .ite (actor_takes.bind fun _ => .bind (.eat _) fun _ => .pure _)
    (.pure _)

theorem program_takes : Takes P Grammar.program :=
  .bind .get fun _ => (declarations_takes _).bind fun _ => actor?_takes.bind fun _ =>
    .bind .current fun _ => .ite (.pure _) (.fail _)

end Grammar
end Didl.Idl
