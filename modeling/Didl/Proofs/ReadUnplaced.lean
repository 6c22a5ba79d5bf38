import Didl.Proofs.Unplacing

namespace Didl.Idl

namespace TokenReader
variable {α β γ δ : Type}

/-- The second reader reads from tokens without places what the first one reads, or it fails for the
same cause; `g` leaves out the places of what is read. -/
def Unplaces (g : α → β) (r : TokenReader α) (r' : TokenReader β) : Prop :=
  ∀ tokens, r' (tokens.map Token.unplaced) =
    unplacedResult (Prod.map g (List.map Token.unplaced)) (r tokens)

theorem front_unplaced (tokens : List Token) :
    front (tokens.map Token.unplaced) = (front tokens).unplaced := by
  cases tokens <;> rfl

theorem behind_unplaced (tokens : List Token) :
    behind (tokens.map Token.unplaced) = (behind tokens).map Token.unplaced := by
  cases tokens with
  | nil => rfl
  | cons t ts => cases ts <;> rfl

namespace Unplaces
variable {g : α → β} {k : γ → δ} {x : TokenReader α} {x' : TokenReader β}

theorem pure {a : α} {b : β} (h : b = g a) :
    Unplaces g (Pure.pure a : TokenReader α) (Pure.pure b) := by
  subst h
  exact fun _ => rfl

theorem bind {f : α → TokenReader γ} {f' : β → TokenReader δ} (hx : Unplaces g x x')
    (hf : ∀ a, Unplaces k (f a) (f' (g a))) : Unplaces k (x >>= f) (x' >>= f') := by
  intro tokens
  simp only [Bind.bind, StateT.bind, hx tokens]
  cases x tokens with
  | error => rfl
  | ok r => exact hf r.1 r.2

theorem ite {c : Prop} [Decidable c] {y : TokenReader α} {y' : TokenReader β}
    (hx : Unplaces g x x') (hy : Unplaces g y y') :
    Unplaces g (if c then x else y) (if c then x' else y') := by
  split
  · exact hx
  · exact hy

theorem get : Unplaces (List.map Token.unplaced) (MonadState.get : TokenReader (List Token))
    MonadState.get := fun _ => rfl

theorem current : Unplaces Token.unplaced TokenReader.current TokenReader.current := by
  intro tokens
  cases tokens <;> rfl

theorem following : Unplaces Token.unplaced TokenReader.following TokenReader.following := by
  intro tokens
  change Except.ok (front (behind (tokens.map Token.unplaced)), tokens.map Token.unplaced) = _
  rw [behind_unplaced, front_unplaced]
  rfl

theorem skip : Unplaces id TokenReader.skip TokenReader.skip := by
  intro tokens
  change Except.ok ((), behind (tokens.map Token.unplaced)) = _
  rw [behind_unplaced]
  rfl

theorem fail (cause : ParseFault) :
    Unplaces g (TokenReader.fail cause) (TokenReader.fail cause) := by
  intro tokens
  cases tokens <;> rfl

theorem expected (what : String) :
    Unplaces g (TokenReader.expected what) (TokenReader.expected what) :=
  .bind .current fun token => .fail (.expected what token.text)

theorem unescape (token : Token) : Unplaces id (liftM token.unescape : TokenReader String)
    (liftM token.unplaced.unescape) := by
  intro tokens
  change (token.unplaced.unescape.bind fun s => .ok (s, tokens.map Token.unplaced)) =
    ((token.unescape.bind fun s => .ok (s, tokens)).map _).mapError _
  unfold Token.unescape
  rw [Token.unplaced]
  cases Escape.decode token.text <;> rfl

theorem isAt (text : String) : Unplaces id (TokenReader.isAt text) (TokenReader.isAt text) :=
  .bind .current fun _ => .pure rfl

theorem eat (text : String) : Unplaces id (TokenReader.eat text) (TokenReader.eat text) :=
  .bind (.isAt text) fun _ => .ite (.bind .skip fun _ => .pure rfl) (.pure rfl)

theorem expect (text : String) : Unplaces id (TokenReader.expect text) (TokenReader.expect text) :=
  .bind (.eat text) fun _ => .ite (.pure rfl) (.expected _)

theorem eatIf (kind : String → Bool) :
    Unplaces (Option.map Token.unplaced) (TokenReader.eatIf kind) (TokenReader.eatIf kind) :=
  .bind .current fun _ => .ite (.bind .skip fun _ => .pure rfl) (.pure rfl)

theorem expectIf (kind : String → Bool) (what : String) :
    Unplaces Token.unplaced (TokenReader.expectIf kind what) (TokenReader.expectIf kind what) := by
  refine .bind (.eatIf kind) fun found => ?_
  cases found with
  | none => exact .expected _
  | some token => exact .pure rfl

theorem items {item : TokenReader α} {item' : TokenReader β} (h : Unplaces g item item')
    (separator closing : String) (n : Nat) : Unplaces (List.map g)
      (TokenReader.items item separator closing n) (TokenReader.items item' separator closing n) := by
  induction n with
  | zero => exact .expected _
  | succ n ih =>
    refine .bind (.eat closing) fun _ => .ite (.pure rfl) (.bind h fun a => ?_)
    have hrest : Unplaces (List.map g)
        (do return a :: (← TokenReader.items item separator closing n))
        (do return g a :: (← TokenReader.items item' separator closing n)) :=
      ih.bind fun _ => .pure rfl
    exact .bind (.eat separator) fun _ => .ite hrest
      (.bind (.isAt closing) fun _ => .ite hrest (.bind (.expected (g := id) _) fun _ => hrest))

theorem enclosed {item : TokenReader α} {item' : TokenReader β} (h : Unplaces g item item')
    (opening separator closing : String) : Unplaces (List.map g)
      (TokenReader.enclosed opening separator closing item)
      (TokenReader.enclosed opening separator closing item') := by
  refine .bind (.expect opening) fun _ => .bind .get fun tokens => ?_
  rw [List.length_map]
  exact h.items separator closing _

end Unplaces
end TokenReader

namespace Grammar
open TokenReader

theorem label_unplaces : Unplaces id label label :=
  .bind .current fun token => .ite (.bind .skip fun _ => .pure rfl)
    (.ite (.bind (.unescape token) fun _ => .bind .skip fun _ => .pure rfl)
      (.ite (.bind .skip fun _ => .pure rfl) (.pure rfl)))

theorem splitModes_unplaced (tokens : List Token) : splitModes (tokens.map Token.unplaced) =
    ((splitModes tokens).1, (splitModes tokens).2.map Token.unplaced) := by
  induction tokens with
  | nil => rfl
  | cons token tokens ih =>
    rw [List.map_cons, splitModes, splitModes, ih]
    change (if Keyword.modes.contains token.text = true then _ else _) = _
    split <;> rfl

section Nested
variable {type : TokenReader TypeExpr} (h : Unplaces TypeExpr.unplaced type type)
include h

theorem field_unplaces :
    Unplaces (FieldExpr.unplaced TypeExpr.unplaced) (field type) (field type) := by
  refine .bind .current fun token => .bind .following fun next =>
    .ite (.bind label_unplaces fun found => ?_)
      (.ite (.bind label_unplaces fun found => ?_) (h.bind fun _ => .pure rfl))
  · cases found with
    | none => exact .expected _
    | some l => exact .bind (.expect _) fun _ => h.bind fun _ => .pure rfl
  · cases found with
    | none => exact h.bind fun _ => .pure rfl
    | some l => exact .pure rfl

theorem argument_unplaces :
    Unplaces (ArgExpr.unplaced TypeExpr.unplaced) (argument type) (argument type) := by
  have hname : Unplaces id argumentName argumentName :=
    .bind .current fun token => .bind .following fun _ => .ite
      (.ite (.bind (.unescape token) fun _ => .bind .skip fun _ => .bind .skip fun _ => .pure rfl)
        (.ite (.bind .skip fun _ => .bind .skip fun _ => .pure rfl) (.pure rfl))) (.pure rfl)
  exact hname.bind fun _ => h.bind fun _ => .pure rfl

theorem arguments_unplaces :
    Unplaces (List.map (ArgExpr.unplaced TypeExpr.unplaced)) (arguments type) (arguments type) :=
  (argument_unplaces h).enclosed _ _ _

theorem signature_unplaces :
    Unplaces (Form.unplaced TypeExpr.unplaced) (signature type) (signature type) := by
  have hmodes : Unplaces id (modifyGet splitModes : TokenReader (List String))
      (modifyGet splitModes) := by
    intro tokens
    change Except.ok (splitModes (tokens.map Token.unplaced)) = _
    rw [splitModes_unplaced]
    rfl
  exact (arguments_unplaces h).bind fun _ => .bind (.expect _) fun _ =>
    (arguments_unplaces h).bind fun _ => .bind hmodes fun _ => .pure rfl

theorem method_unplaces :
    Unplaces (MethodExpr.unplaced TypeExpr.unplaced) (method type) (method type) := by
  have hname : Unplaces id methodName methodName :=
    .bind .current fun token => .ite (.bind .skip fun _ => .pure rfl)
      (.ite (.bind (.unescape token) fun _ => .bind .skip fun _ => .pure rfl) (.expected _))
  exact .bind .current fun _ => hname.bind fun _ => .bind (.expect _) fun _ =>
    .bind (.isAt _) fun _ => .ite ((signature_unplaces h).bind fun f =>
        .pure (congrArg (MethodExpr.mk _ _) (TypeExpr.unplaced_form f).symm))
      (.bind (.expectIf _ _) fun _ => .pure rfl)

theorem methods_unplaces :
    Unplaces (List.map (MethodExpr.unplaced TypeExpr.unplaced)) (methods type) (methods type) :=
  (method_unplaces h).enclosed _ _ _

theorem fields_unplaces :
    Unplaces (List.map (FieldExpr.unplaced TypeExpr.unplaced)) (fields type) (fields type) :=
  (field_unplaces h).enclosed _ _ _

theorem typeOver_unplaces : Unplaces TypeExpr.unplaced (typeOver type) (typeOver type) := by
  refine .bind .current fun token => .ite (.bind .skip fun _ => ?_)
    (.bind (.expectIf _ _) fun _ => .pure rfl)
  change Unplaces _ (afterFormer type token.text) (afterFormer type token.text)
  unfold afterFormer
  split
  · exact h.bind fun e => .pure (TypeExpr.unplaced_form (.opt e)).symm
  · exact h.bind fun e => .pure (TypeExpr.unplaced_form (.vec e)).symm
  · exact (fields_unplaces h).bind fun fs => .pure (TypeExpr.unplaced_form (.record fs)).symm
  · exact (fields_unplaces h).bind fun fs => .pure (TypeExpr.unplaced_form (.variant fs)).symm
  · exact (signature_unplaces h).bind fun f => .pure (TypeExpr.unplaced_form f).symm
  · exact (methods_unplaces h).bind fun ms => .pure (TypeExpr.unplaced_form (.service ms)).symm
  · exact .pure rfl
  · exact .pure rfl

end Nested

theorem typeWithin_unplaces (n : Nat) : Unplaces TypeExpr.unplaced (typeWithin n) (typeWithin n) := by
  induction n with
  | zero => exact .expected _
  | succ n ih => exact typeOver_unplaces ih

theorem type_unplaces : Unplaces TypeExpr.unplaced Grammar.type Grammar.type := by
  refine .bind .get fun tokens => ?_
  rw [List.length_map]
  exact typeWithin_unplaces _

def unplacedDeclarations (found : List Import × List Definition) :
    List Import × List Definition :=
  (found.1.map Import.unplaced, found.2.map Definition.unplaced)

theorem declarations_unplaces (n : Nat) :
    Unplaces unplacedDeclarations (declarations n) (declarations n) := by
  induction n with
  | zero => exact .pure rfl
  | succ n ih =>
    refine .bind .current fun _ => .bind (.eat _) fun _ => .ite ?_
      (.bind (.eat _) fun _ => .ite ?_ (.pure rfl))
    · exact .bind (.expectIf _ _) fun _ => .bind (.expect _) fun _ => type_unplaces.bind fun _ =>
        .bind (.eat _) fun _ => ih.bind fun _ => .pure rfl
    · exact .bind (.expectIf _ _) fun _ => .bind (.unescape _) fun _ => .bind (.eat _) fun _ =>
        ih.bind fun _ => .pure rfl

theorem init_unplaces :
    Unplaces (Option.map (List.map (ArgExpr.unplaced TypeExpr.unplaced))) Grammar.init Grammar.init :=
  .bind (.isAt _) fun _ => .ite ((arguments_unplaces type_unplaces).bind fun _ =>
    .bind (.expect _) fun _ => .pure rfl) (.pure rfl)

theorem actor_unplaces : Unplaces Actor.unplaced actor actor := by
  have hfound : ∀ (name : Option Token) (p : Position) (init : Option (List (ArgExpr TypeExpr)))
      {body body' : TypeExpr}, body' = body.unplaced →
      (⟨(name.map Token.unplaced).map (·.text), .nowhere,
        init.map (List.map (ArgExpr.unplaced TypeExpr.unplaced)), body'⟩ : Actor) =
        Actor.unplaced ⟨name.map (·.text), p, init, body⟩ := by
    rintro name p init body _ rfl
    cases name <;> rfl
  exact .bind .current fun token => .bind (.expect _) fun _ => .bind (.eatIf _) fun name =>
    .bind (.expect _) fun _ => init_unplaces.bind fun init => .bind (.isAt _) fun _ =>
      .ite ((methods_unplaces type_unplaces).bind fun ms =>
          .pure (hfound name token.position init (TypeExpr.unplaced_form (.service ms)).symm))
        (.bind (.expectIf _ _) fun target => .pure (hfound name token.position init rfl))

theorem actor?_unplaces : Unplaces (Option.map Actor.unplaced) actor? actor? :=
  .bind (.isAt _) fun _ => .ite (actor_unplaces.bind fun _ => .bind (.eat _) fun _ => .pure rfl)
    (.pure rfl)

theorem program_unplaces : Unplaces Program.unplaced Grammar.program Grammar.program := by
  refine .bind .get fun tokens => ?_
  rw [List.length_map]
  exact (declarations_unplaces _).bind fun _ => actor?_unplaces.bind fun _ =>
    .bind .current fun _ => .ite (.pure rfl) (.fail _)

end Grammar

/-- Tokens without places spell the same program, or they fail for the same cause. -/
theorem Program.ofTokens_unplaced (tokens : List Token) :
    ofTokens (tokens.map Token.unplaced) = unplacedResult Program.unplaced (ofTokens tokens) := by
  unfold ofTokens StateT.run'
  rw [Grammar.program_unplaces tokens]
  cases Grammar.program tokens <;> rfl

end Didl.Idl
