import Didl.Proofs.Compiling
import Didl.Proofs.ParseFaults

namespace Didl.Idl
open Table

namespace Scope
variable {scope : Scope}

section Returns
variable (haccepted : scope.Accepted) (hwords : ∀ d ∈ scope, Grammatical d.type)
include haccepted hwords

theorem typeOfName_returns {x : String} (hx : scope.isDefined x = true) :
    ∃ type, scope.typeOfName x = .ok type := by
  obtain ⟨z, e, hstands⟩ := haccepted.standsFor hx
  obtain ⟨hbody, hnot⟩ := hstands.body
  have hcanonical := haccepted.canonical.mpr hstands
  cases e with
  | name y p => exact absurd rfl (hnot y p)
  | primitive keyword =>
    obtain ⟨d, hd, heq⟩ := Option.map_eq_some_iff.mp hbody
    have hword := hwords d (List.mem_of_find?_eq_some hd)
    rw [heq] at hword
    cases hword with
    | primitive hword =>
      obtain ⟨p, hp⟩ := Option.isSome_iff_exists.mp hword
      exact ⟨.prim p, except_bind_ok hcanonical (by simp only [primitiveOf, hp])⟩
  | blob | form => exact ⟨.named z, except_bind_ok hcanonical rfl⟩

/-- Every expression that was checked denotes a type. -/
theorem typeOf_returns {e : TypeExpr} (he : Grammatical e) (hcheck : scope.checkExpr e = .ok ()) :
    ∃ type, scope.typeOf e = .ok type := by
  induction e using TypeExpr.induct with
  | name x p => exact typeOfName_returns haccepted hwords (isDefined_of_check hcheck)
  | primitive keyword =>
    cases he with
    | primitive hword =>
      obtain ⟨p, hp⟩ := Option.isSome_iff_exists.mp hword
      exact ⟨.prim p, by simp only [typeOf, TypeExpr.fold, primitiveOf, hp]⟩
  | blob => exact ⟨_, rfl⟩
  | form f ih =>
    have hallowed : f.Allowed := by
      cases he with
      | form _ hallowed => exact hallowed
    obtain ⟨d, hd⟩ := layout_returns hcheck hallowed
    obtain ⟨_, hchecked⟩ := layout_checked hcheck hd
    obtain ⟨c, hc⟩ := Composite.mapM_returns fun e hmem =>
      ih d hd e hmem (he.holds (Form.holds_of_layout hd hmem)) (hchecked e hmem)
    exact ⟨_, typeOf_form.mpr ⟨d, c, hd, hc, rfl⟩⟩

end Returns

end Scope

def Failure.IsWire : Failure → Prop
  | .wire _ => True
  | _ => False

theorem Failure.IsParse.not_wire {e : Failure} (h : e.IsParse) : ¬ e.IsWire := by
  cases e <;> simp_all [IsParse, IsWire]

/-- Programs of which every definition and the service were parsed, each from tokens of its own. -/
structure Program.Gathered (program : Program) : Prop where
  definitions : ∀ d ∈ program.definitions, ∃ tokens file,
    Program.ofTokens tokens = .ok file ∧ d ∈ file.definitions
  actor : ∀ a, program.actor = some a → ∃ tokens file,
    Program.ofTokens tokens = .ok file ∧ file.actor = some a

def Interface.types (i : Interface) : List Ty :=
  i.table.entries.map .composite ++ i.definitions.map (·.2) ++ i.serviceTypes

/-- What compiled programs promise: every name is bound, labels ascend, methods are functions, and
a declared service answers for the methods that it has. -/
structure Interface.Sound (i : Interface) : Prop where
  names : ∀ type ∈ i.types, ∀ x ∈ type.names, i.table.isBound x = true
  labels : ∀ type ∈ i.types, ∀ c ∈ type.parts, c.shape.Ascends
  methods : ∀ type ∈ i.types, ∀ ms, .service ms ∈ type.parts → ∀ m ∈ ms,
    ∃ args results modes, i.table.follow m.type = .ok (.composite (.func args results modes))
  service : ∀ actor, i.program.actor = some actor → ∃ service ms, i.service = some service ∧
    i.table.follow service.type = .ok (.composite (.service ms)) ∧
    ∀ name, (∃ signature, i.method name = .ok signature) ↔ name ∈ ms.map (·.name)

namespace Program
variable {program : Program}

theorem Gathered.grammatical (h : program.Gathered) : program.Grammatical := by
  refine ⟨fun d hd => ?_, fun a ha => ?_⟩
  · obtain ⟨tokens, file, hfile, hmem⟩ := h.definitions d hd
    exact (ofTokens_grammatical hfile).definitions d hmem
  · obtain ⟨tokens, file, hfile, heq⟩ := h.actor a ha
    exact (ofTokens_grammatical hfile).actor a heq

/-- A program in the words of the language that is accepted compiles. -/
theorem interface_of_check (hgrammatical : program.Grammatical) (hcheck : program.check = .ok ()) :
    ∃ i, program.interface = .ok i := by
  obtain ⟨haccepted, hactor⟩ := check_eq_ok.mp hcheck
  have htype {e : TypeExpr} (he : Idl.Grammatical e) :=
    Scope.typeOf_returns haccepted hgrammatical.definitions he
  have hdefinition : ∀ d ∈ program.definitions, ∃ p : String × Ty,
      p.1 = d.name ∧ Scope.typeOf program.definitions d.type = .ok p.2 := by
    intro d hd
    obtain ⟨type, h⟩ := htype (hgrammatical.definitions d hd) (haccepted.exprs d hd)
    exact ⟨(d.name, type), rfl, h⟩
  obtain ⟨definitions, htyped⟩ := exists_forall₂ hdefinition
  have hservice : ∃ service, Option.Rel (fun actor service =>
      serviceType program.definitions actor = .ok service) program.actor service := by
    cases hprogram : program.actor with
    | none => exact ⟨none, .none⟩
    | some actor =>
      obtain ⟨hchecked, _⟩ := checkActor_eq_ok (hactor actor hprogram)
      have hexpr : ∀ e ∈ actor.exprs, ∃ type, Scope.typeOf program.definitions e = .ok type :=
        fun e he => htype (hgrammatical.exprs hprogram he) (hchecked e he)
      rw [Actor.exprs, List.forall_mem_append, List.forall_mem_map,
        List.forall_mem_singleton] at hexpr
      obtain ⟨init, hinit⟩ := exists_forall₂ hexpr.1
      obtain ⟨type, hbody⟩ := hexpr.2
      exact ⟨some ⟨actor.name, init, type⟩, .some (serviceType_eq_ok.mpr ⟨rfl, hinit, hbody⟩)⟩
  obtain ⟨service, hservice⟩ := hservice
  exact interface_returns hcheck htyped hservice

/-- What a type of a program looks through to occurs among its types. -/
theorem follow_mem_types {i : Interface} {type : Ty} (htype : type ∈ i.types) {c : Composite Ty}
    (hfollow : i.table.follow type = .ok (.composite c)) : .composite c ∈ i.types := by
  cases type with
  | prim p => cases hfollow
  | composite d =>
    cases hfollow
    exact htype
  | named x =>
    simp only [follow, resolve] at hfollow
    split at hfollow
    · rcases typeOfCode_eq_ok hfollow with ⟨p, _, _, heq⟩ | ⟨_, e, _, he, heq⟩
      · cases heq
      · cases heq
        exact List.mem_append_left _ (List.mem_append_left _
          (List.mem_map_of_mem (List.mem_of_getElem? he)))
    · cases hfollow

/-- A method is answered for exactly if the service has it, once its methods are functions. -/
theorem method_eq_ok {i : Interface} {service : ServiceType} (hservice : i.service = some service)
    {ms : List (Method Ty)} (hfollow : i.table.follow service.type = .ok (.composite (.service ms)))
    (hmethods : ∀ m ∈ ms, ∃ args results modes,
      i.table.follow m.type = .ok (.composite (.func args results modes))) (name : String) :
    (∃ signature, i.method name = .ok signature) ↔ name ∈ ms.map (·.name) := by
  unfold Interface.method
  rw [hservice, List.mem_map]
  constructor
  · rintro ⟨signature, h⟩
    obtain ⟨head, hhead, h⟩ := except_bind_eq_ok.mp h
    rw [liftWire_eq_ok, hfollow] at hhead
    cases hhead
    dsimp only at h
    split at h
    · cases h
    · rename_i m hm
      exact ⟨m, List.mem_of_find?_eq_some hm, by simpa using List.find?_some hm⟩
  · rintro ⟨m, hm, rfl⟩
    obtain ⟨m', hfind⟩ : ∃ m', ms.find? (·.name == m.name) = some m' :=
      Option.isSome_iff_exists.mp (List.find?_isSome.mpr ⟨m, hm, by simp⟩)
    obtain ⟨args, results, modes, hm'⟩ := hmethods m' (List.mem_of_find?_eq_some hfind)
    refine ⟨⟨args, results, modes⟩, except_bind_ok (liftWire_eq_ok.mpr hfollow) ?_⟩
    dsimp only
    rw [hfind]
    exact except_bind_ok (liftWire_eq_ok.mpr hm') rfl

section Sound
variable {i : Interface} (hgrammatical : program.Grammatical) (h : program.interface = .ok i)
include hgrammatical h

/-- All types of a program are what accepted expressions denote, or occur in such types. -/
theorem types_denoted : ∀ type ∈ i.types, Scope.Denoted program.definitions type := by
  obtain ⟨hdefinitions, hservice⟩ := interface_denoted hgrammatical h
  obtain ⟨hcompiled, _⟩ := interface_compiled h hdefinitions hservice
  obtain ⟨types, hexact, htypes⟩ := hcompiled.exact
  refine List.forall_mem_append.mpr ⟨List.forall_mem_append.mpr ⟨?_, ?_⟩, hservice⟩
  · refine List.forall_mem_map.mpr fun c hc => ?_
    obtain ⟨type, htype, hpart⟩ := hexact.covered c hc
    exact (htypes type htype).part hpart
  · exact List.forall_mem_map.mpr hdefinitions

/-- The type of a declared service looks through to a service. -/
theorem follow_service {actor : Actor} (hactor : program.actor = some actor)
    {service : ServiceType}
    (hservice : serviceType program.definitions actor = .ok service) :
    ∃ ms, i.table.follow service.type = .ok (.composite (.service ms)) := by
  obtain ⟨hcheck, _, htyped, _, _⟩ := interface_eq_ok.mp h
  obtain ⟨haccepted, hactors⟩ := check_eq_ok.mp hcheck
  obtain ⟨_, hisService⟩ := checkActor_eq_ok (hactors actor hactor)
  obtain ⟨_, _, hbody⟩ := serviceType_eq_ok.mp hservice
  rcases (hgrammatical.actor actor hactor).service with ⟨methods, heq⟩ | ⟨x, p, heq⟩
  · rw [heq] at hbody
    obtain ⟨ms, htype, _⟩ := Scope.typeOf_service hbody
    exact ⟨_, by rw [htype]; rfl⟩
  · obtain ⟨hcompiled, hbound⟩ :=
      interface_compiled (P := fun _ => True) h (fun _ _ => trivial) fun _ _ => trivial
    rw [heq] at hbody
    obtain ⟨z, methods, hdefines, hz⟩ := Scope.typeOfName_service hbody (hisService x p heq)
    obtain ⟨c, d, hc, hfollow, hrel⟩ :=
      hcompiled.named_composite htyped hbound (Scope.names_nodup haccepted.names) hdefines
    obtain ⟨ms, htype, _⟩ := Scope.typeOf_service hc
    cases htype
    cases hrel with
    | service _ => exact ⟨_, hz ▸ hfollow⟩

/-- What a program in the words of the language compiles to can be used without fault. -/
theorem interface_sound : i.Sound := by
  obtain ⟨hcheck, hprogram, htyped, hservice, _⟩ := interface_eq_ok.mp h
  obtain ⟨haccepted, _⟩ := check_eq_ok.mp hcheck
  have hnodup := Scope.names_nodup haccepted.names
  obtain ⟨hcompiled, hbound⟩ :=
    interface_compiled (P := fun _ => True) h (fun _ _ => trivial) fun _ _ => trivial
  have hdenoted := types_denoted hgrammatical h
  have hmethods : ∀ type ∈ i.types, ∀ ms, .service ms ∈ type.parts → ∀ m ∈ ms,
      ∃ args results modes, i.table.follow m.type = .ok (.composite (.func args results modes)) :=
    fun type htype ms hms m hm =>
      hcompiled.follow_function htyped hbound hnodup ((hdenoted type htype).methods ms hms m hm)
  refine ⟨fun type htype x hx => ?_, fun type htype => (hdenoted type htype).labels, hmethods,
    fun actor hactor => ?_⟩
  · obtain ⟨e, he⟩ := (hdenoted type htype).names x hx
    exact Compiled.isBound htyped hbound he
  · rw [hprogram] at hactor
    rw [hactor] at hservice
    cases hs : i.service with
    | none =>
      rw [hs] at hservice
      cases hservice
    | some service =>
      rw [hs] at hservice
      cases hservice with
      | some hservice =>
        obtain ⟨ms, hfollow⟩ := follow_service hgrammatical h hactor hservice
        have hself : service.type ∈ i.types :=
          List.mem_append_right _ (by rw [Interface.serviceTypes, hs]; simp)
        have hpart : .service ms ∈ (Ty.composite (.service ms)).parts := by
          rw [Ty.parts_composite]
          exact List.mem_cons_self
        exact ⟨service, ms, rfl, hfollow, method_eq_ok hs hfollow
          (hmethods _ (follow_mem_types hself hfollow) ms hpart)⟩

end Sound

/-- A program in the words of the language fails for what it means or not at all. -/
theorem interface_compile (hgrammatical : program.Grammatical) {e : Failure}
    (h : program.interface = .error e) : ∃ cause, e = .compile cause := by
  cases hcheck : program.check with
  | ok u =>
    obtain ⟨i, hi⟩ := interface_of_check hgrammatical hcheck
    rw [hi] at h
    cases h
  | error cause =>
    unfold interface at h
    rw [hcheck] at h
    cases h
    exact ⟨cause, rfl⟩

theorem interface_fails (hgrammatical : program.Grammatical) {e : Failure}
    (h : program.interface = .error e) : ¬ e.IsWire := by
  obtain ⟨cause, rfl⟩ := interface_compile hgrammatical h
  exact id

end Program

namespace Loading
variable {σ α β : Type} {P : Failure → Prop} {Q : α → Prop}

/-- Where the work fails, the failure has a property. -/
def Fails (x : Loading σ α) (P : Failure → Prop) : Prop :=
  ∀ s e s', x.run.run s = (.error e, s') → P e

theorem Fails.pure (a : α) : Fails (Pure.pure a : Loading σ α) P := by
  rintro s e s' h
  cases h

theorem Fails.throw {e : Failure} (h : P e) : Fails (MonadExcept.throw e : Loading σ α) P := by
  rintro s e' s' he
  cases he
  exact h

theorem Fails.lift {r : Except Failure α} (h : ∀ e, r = .error e → P e) :
    Fails (liftM r : Loading σ α) P := by
  rintro s e s' he
  cases r with
  | error e' =>
    cases he
    exact h _ rfl
  | ok a => cases he

theorem Fails.bind {x : Loading σ α} {f : α → Loading σ β} (hx : Fails x P) (hQ : Ensures x Q)
    (hf : ∀ a, Q a → Fails (f a) P) : Fails (x >>= f) P := by
  rintro s e s' h
  simp only [ExceptT.run_bind, StateT.run_bind] at h
  rcases hrun : x.run.run s with ⟨e' | a, s₁⟩
  · rw [hrun] at h
    cases h
    exact hx s e _ hrun
  · rw [hrun] at h
    exact hf a (hQ s a s₁ hrun) s₁ e s' h

/-- Where it does not matter what comes first. -/
theorem Fails.andThen {x : Loading σ α} {f : α → Loading σ β} (hx : Fails x P)
    (hf : ∀ a, Fails (f a) P) : Fails (x >>= f) P :=
  hx.bind (Q := fun _ => True) (fun _ _ _ _ => trivial) fun a _ => hf a

theorem Fails.ite {c : Prop} [Decidable c] {x y : Loading σ α} (hx : Fails x P)
    (hy : Fails y P) : Fails (if c then x else y) P := by
  split
  · exact hx
  · exact hy

theorem Fails.foldlM {f : β → α → Loading σ β} (as : List α) (b : β)
    (hf : ∀ b a, Fails (f b a) P) : Fails (as.foldlM f b) P := by
  induction as generalizing b with
  | nil => exact .pure b
  | cons a as ih => exact (hf b a).andThen ih

end Loading

/-- Merging imports fails in no way in which neither the loader nor parsing fails, except for the
imports themselves. -/
theorem Import.merge_fails {σ : Type} {load : Loader σ}
    (hload : ∀ path, (load path).Fails fun e => ¬ e.IsWire) (depth : Nat)
    (opened merged : List String) (program : Program) :
    (Import.merge load depth opened merged program).Fails fun e => ¬ e.IsWire := by
  induction depth generalizing opened merged program with
  | zero => exact .throw id
  | succ depth ih =>
    refine .andThen (.foldlM _ _ fun r i => ?_) fun r => .pure _
    refine .ite (.throw id) (.ite (.pure _) ((hload i.path).andThen fun text => .andThen ?_
      fun file => (ih _ _ file).andThen fun r => .pure _))
    exact .lift fun e he => (Program.ofSource_isParse he).not_wire

namespace Interface

theorem ofSourceWith_fails {σ : Type} {load : Loader σ}
    (hload : ∀ path, (load path).Fails fun e => ¬ e.IsWire) (depth : Nat) (source : String) :
    (ofSourceWith load depth source).Fails fun e => ¬ e.IsWire := by
  refine Loading.Fails.bind (.lift fun e he => (Program.ofSource_isParse he).not_wire)
    (.lift fun program => Program.ofSource_grammatical) fun program hprogram => ?_
  refine (Import.merge_fails hload depth [] [] program).bind
    (Import.merge_grammatical load depth [] [] hprogram.definitions) fun merged hmerged => ?_
  have hwhole : Program.Grammatical ⟨program.imports, merged.1, program.actor⟩ :=
    ⟨hmerged, hprogram.actor⟩
  exact .lift fun e => Program.interface_fails hwhole

def counterSource : String :=
  "type Step = func (Count) -> (opt Count) query;" ++
  "type Count = record \x7b nat; next : Alias \x7d; type Alias = vec Count;" ++
  "type Counter = service \x7b step : Step \x7d; service : (Count) -> Counter"

end Interface

end Didl.Idl
