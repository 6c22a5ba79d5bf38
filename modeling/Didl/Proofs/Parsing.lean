import Didl.Idl.Grammar
import Didl.Proofs.Traversal

namespace Didl.Idl

inductive MethodType : TypeExpr → Prop
  | signature (args results : List (ArgExpr TypeExpr)) (modes : List String) :
      MethodType (.form (.func args results modes))
  | name (target : String) (position : Position) : MethodType (.name target position)

def Form.Allowed : Form TypeExpr → Prop
  | .func _ _ modes => ∀ word ∈ modes, word ∈ Keyword.modes
  | .service ms => ∀ m ∈ ms, MethodType m.type
  | _ => True

/-- Expressions in the words of the language, in which the types of methods are written as they may
be. -/
inductive Grammatical : TypeExpr → Prop
  | name (name : String) (position : Position) : Grammatical (.name name position)
  | primitive {keyword : String} : Keyword.isPrimitive keyword = true →
      Grammatical (.primitive keyword)
  | blob : Grammatical .blob
  | form {f : Form TypeExpr} : (∀ e ∈ f.members, Grammatical e) → f.Allowed → Grammatical (.form f)

namespace TokenReader
variable {α β : Type} {P : α → Prop} {Q : β → Prop}

def Ensures (r : TokenReader α) (P : α → Prop) : Prop :=
  ∀ tokens a rest, r tokens = .ok (a, rest) → P a

theorem Ensures.pure {a : α} (h : P a) : Ensures (Pure.pure a) P := by
  rintro tokens b rest hb
  cases hb
  exact h

theorem Ensures.bind {x : TokenReader α} {f : α → TokenReader β} (hx : Ensures x P)
    (hf : ∀ a, P a → Ensures (f a) Q) : Ensures (x >>= f) Q := by
  rintro tokens b rest h
  simp only [Bind.bind, StateT.bind, Except.bind] at h
  split at h
  · cases h
  · rename_i r hr
    exact hf r.1 (hx tokens r.1 r.2 hr) r.2 b rest h

/-- What comes first does not matter. -/
theorem Ensures.after {x : TokenReader α} {f : α → TokenReader β} (hf : ∀ a, Ensures (f a) Q) :
    Ensures (x >>= f) Q :=
  Ensures.bind (P := fun _ => True) (fun _ _ _ _ => trivial) fun a _ => hf a

theorem Ensures.ite {c : Prop} [Decidable c] {x y : TokenReader α} (hx : Ensures x P)
    (hy : Ensures y P) : Ensures (if c then x else y) P := by
  split
  · exact hx
  · exact hy

theorem Ensures.expected (what : String) : Ensures (TokenReader.expected what) P := by
  rintro tokens a rest h
  cases h

theorem Ensures.items {item : TokenReader α} (h : Ensures item P) (separator closing : String)
    (n : Nat) : Ensures (TokenReader.items item separator closing n) fun as => ∀ a ∈ as, P a := by
  induction n with
  | zero => exact .expected _
  | succ n ih =>
    refine .after fun closed => .ite (.pure nofun) (h.bind fun a ha => .after fun _ => ?_)
    have hrest : Ensures (do return a :: (← TokenReader.items item separator closing n))
        fun as => ∀ a ∈ as, P a :=
      ih.bind fun as has => .pure (List.forall_mem_cons.mpr ⟨ha, has⟩)
    exact .ite hrest (.after fun _ => .ite hrest (.after fun _ => hrest))

theorem Ensures.enclosed {item : TokenReader α} (h : Ensures item P)
    (opening separator closing : String) :
    Ensures (TokenReader.enclosed opening separator closing item) fun as => ∀ a ∈ as, P a :=
  .after fun _ => .after fun _ => h.items _ _ _

end TokenReader

namespace Grammar
open TokenReader
variable {type : TokenReader TypeExpr}

theorem field_grammatical (h : Ensures type Grammatical) :
    Ensures (field type) fun f => ∀ e, f.type = some e → Grammatical e := by
  have hsome : ∀ (l : Option Label) (position : Position),
      Ensures (do return (⟨l, some (← type), position⟩ : FieldExpr TypeExpr))
        fun f => ∀ e, f.type = some e → Grammatical e := fun l position =>
    h.bind fun e he => .pure (by rintro e' ⟨⟩; exact he)
  refine .after fun token => .after fun next => .ite (.after fun found => ?_)
    (.ite (.after fun found => ?_) (hsome none _))
  · cases found with
    | none => exact .expected _
    | some l => exact .after fun _ => hsome (some l) _
  · cases found with
    | none => exact hsome none _
    | some l => exact .pure nofun

theorem fields_grammatical (h : Ensures type Grammatical) :
    Ensures (fields type) fun fs => ∀ e ∈ fs.filterMap (·.type), Grammatical e := by
  rintro tokens fs rest hfs e he
  obtain ⟨f, hf, he⟩ := List.mem_filterMap.mp he
  exact (field_grammatical h).enclosed _ _ _ tokens fs rest hfs f hf e he

theorem arguments_grammatical (h : Ensures type Grammatical) :
    Ensures (arguments type) fun as => ∀ e ∈ as.map (·.type), Grammatical e := by
  have hargument : Ensures (argument type) fun a => Grammatical a.type :=
    .after fun name => h.bind fun e he => .pure he
  rintro tokens as rest has e he
  obtain ⟨a, ha, rfl⟩ := List.mem_map.mp he
  exact hargument.enclosed _ _ _ tokens as rest has a ha

theorem splitModes_modes (tokens : List Token) :
    ∀ word ∈ (splitModes tokens).1, word ∈ Keyword.modes := by
  induction tokens with
  | nil => exact nofun
  | cons token tokens ih =>
    rw [splitModes]
    split
    · rename_i hmode
      exact List.forall_mem_cons.mpr ⟨by simpa using hmode, ih⟩
    · exact nofun

theorem signature_grammatical (h : Ensures type Grammatical) :
    Ensures (signature type) fun f => Grammatical (.form f) ∧ MethodType (.form f) := by
  have hmodes : Ensures (modifyGet splitModes) fun modes => ∀ word ∈ modes, word ∈ Keyword.modes := by
    intro tokens modes rest h
    have hsplit : splitModes tokens = (modes, rest) := Except.ok.inj h
    have hmodes := splitModes_modes tokens
    rwa [hsplit] at hmodes
  refine (arguments_grammatical h).bind fun args hargs => .after fun _ =>
    (arguments_grammatical h).bind fun results hresults => hmodes.bind fun modes hmodes =>
      .pure ⟨.form (fun e he => ?_) hmodes, .signature ..⟩
  rw [Form.members, List.map_append] at he
  exact (List.mem_append.mp he).elim (hargs e) (hresults e)

theorem method_grammatical (h : Ensures type Grammatical) :
    Ensures (method type) fun m => Grammatical m.type ∧ MethodType m.type := by
  refine .after fun token => .after fun name => .after fun _ => .after fun _ => .ite ?_ ?_
  · exact (signature_grammatical h).bind fun f hf => .pure hf
  · exact .after fun target => .pure ⟨.name _ _, .name _ _⟩

theorem methods_grammatical (h : Ensures type Grammatical) :
    Ensures (methods type) fun ms => Grammatical (.form (.service ms)) := by
  rintro tokens ms rest hms
  have hall := (method_grammatical h).enclosed _ _ _ tokens ms rest hms
  refine .form (fun e he => ?_) fun m hm => (hall m hm).2
  obtain ⟨m, hm, rfl⟩ := List.mem_map.mp he
  exact (hall m hm).1

theorem typeOver_grammatical (h : Ensures type Grammatical) :
    Ensures (typeOver type) Grammatical := by
  refine .after fun token => ?_
  split
  · rename_i hstarts
    refine .after fun _ => ?_
    unfold afterFormer
    split
    · exact h.bind fun e he => .pure (.form (by simpa [Form.members] using he) trivial)
    · exact h.bind fun e he => .pure (.form (by simpa [Form.members] using he) trivial)
    · exact (fields_grammatical h).bind fun fs hfs => .pure (.form hfs trivial)
    · exact (fields_grammatical h).bind fun fs hfs => .pure (.form hfs trivial)
    · exact (signature_grammatical h).bind fun f hf => .pure hf.1
    · exact (methods_grammatical h).bind fun ms hms => .pure hms
    · exact .pure .blob
    · exact .pure (.primitive (by simp_all [Keyword.startsType, Keyword.formers]))
  · exact .after fun target => .pure (.name _ _)

theorem typeWithin_grammatical (n : Nat) : Ensures (typeWithin n) Grammatical := by
  induction n with
  | zero => exact .expected _
  | succ n ih => exact typeOver_grammatical ih

theorem type_grammatical : Ensures Grammar.type Grammatical :=
  .after fun _ => typeWithin_grammatical _

theorem declarations_grammatical (n : Nat) :
    Ensures (declarations n) fun r => ∀ d ∈ r.2, Grammatical d.type := by
  induction n with
  | zero => exact .pure nofun
  | succ n ih =>
    refine .after fun token => .after fun found => .ite ?_
      (.after fun found => .ite ?_ (.pure nofun))
    · refine .after fun name => .after fun _ => type_grammatical.bind fun body hbody =>
        .after fun _ => ih.bind fun r hr => .pure (List.forall_mem_cons.mpr ⟨hbody, hr⟩)
    · exact .after fun quoted => .after fun path => .after fun _ => ih.bind fun r hr => .pure hr

theorem init_grammatical :
    Ensures Grammar.init fun r => ∀ args, r = some args → ∀ a ∈ args, Grammatical a.type := by
  refine .after fun _ => .ite ?_ (.pure nofun)
  refine (arguments_grammatical type_grammatical).bind fun args hargs => .after fun _ => .pure ?_
  rintro _ ⟨⟩ a ha
  exact hargs _ (List.mem_map_of_mem ha)

end Grammar

structure Actor.Grammatical (actor : Actor) : Prop where
  body : Idl.Grammatical actor.body
  service : (∃ ms, actor.body = .form (.service ms)) ∨ ∃ x p, actor.body = .name x p
  init : ∀ arg ∈ actor.init.getD [], Idl.Grammatical arg.type

namespace Grammar
open TokenReader

theorem actor_grammatical : Ensures actor Actor.Grammatical := by
  have hinit : ∀ {init : Option (List (ArgExpr TypeExpr))},
      (∀ args, init = some args → ∀ a ∈ args, Grammatical a.type) →
      ∀ arg ∈ init.getD [], Grammatical arg.type := by
    rintro (_ | args) h arg harg
    · cases harg
    · exact h args rfl arg harg
  refine .after fun token => .after fun _ => .after fun name => .after fun _ =>
    init_grammatical.bind fun init h => .after fun _ => .ite ?_ ?_
  · exact (methods_grammatical type_grammatical).bind fun ms hms =>
      .pure ⟨hms, .inl ⟨ms, rfl⟩, hinit h⟩
  · exact .after fun target => .pure ⟨.name _ _, .inr ⟨_, _, rfl⟩, hinit h⟩

end Grammar

structure Program.Grammatical (program : Program) : Prop where
  definitions : ∀ d ∈ program.definitions, Idl.Grammatical d.type
  actor : ∀ a, program.actor = some a → a.Grammatical

open TokenReader Grammar in
/-- Whatever is parsed is grammatical. -/
theorem Program.ofTokens_grammatical {tokens : List Token} {program : Program}
    (h : Program.ofTokens tokens = .ok program) : program.Grammatical := by
  have hactor? : Ensures actor? fun r => ∀ a, r = some a → a.Grammatical := by
    refine .after fun _ => .ite (actor_grammatical.bind fun a ha => .after fun _ => .pure ?_)
      (.pure nofun)
    rintro _ ⟨⟩
    exact ha
  have hprogram : Ensures Grammar.program Program.Grammatical := by
    refine .after fun tokens => (declarations_grammatical _).bind fun r hr =>
      hactor?.bind fun a ha => .after fun token => .ite (.pure ⟨hr, ha⟩) ?_
    rintro tokens a rest hfail
    cases hfail
  obtain ⟨⟨program', rest⟩, hrun, heq⟩ := except_bind_eq_ok.mp h
  cases heq
  exact hprogram tokens program' rest hrun

theorem Program.ofSource_grammatical {source : String} {program : Program}
    (h : Program.ofSource source = .ok program) : program.Grammatical := by
  obtain ⟨tokens, _, h⟩ := except_bind_eq_ok.mp h
  exact ofTokens_grammatical h

end Didl.Idl
