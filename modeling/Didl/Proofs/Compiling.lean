import Didl.Idl.Import
import Didl.Proofs.Aliases
import Didl.Proofs.Building
import Didl.Proofs.WellFormed

namespace Didl.Idl
open Table

theorem liftCompile_eq_ok {α : Type} {x : Except CompileFault α} {a : α} :
    liftCompile x = .ok a ↔ x = .ok a := by
  cases x <;> simp [liftCompile]

theorem liftWire_eq_ok {α : Type} {x : Except Fault α} {a : α} :
    liftWire x = .ok a ↔ x = .ok a := by
  cases x <;> simp [liftWire]

def Scope.Typed (scope : Scope) (definitions : List (String × Ty)) : Prop :=
  List.Forall₂ (fun d p => p.1 = d.name ∧ scope.typeOf d.type = .ok p.2) scope definitions

namespace Scope.Typed
variable {scope : Scope} {definitions : List (String × Ty)} (h : scope.Typed definitions)
include h

theorem lookup {x : String} {e : TypeExpr} (hx : scope.body? x = some e) :
    ∃ type, (x, type) ∈ definitions ∧ scope.typeOf e = .ok type := by
  obtain ⟨d, hd, rfl⟩ := Option.map_eq_some_iff.mp hx
  obtain rfl : d.name = x := by simpa using List.find?_some hd
  obtain ⟨⟨name, type⟩, hp, rfl, htype⟩ := exists_of_mem_right h.flip (List.mem_of_find?_eq_some hd)
  exact ⟨type, hp, htype⟩

theorem names : definitions.map Prod.fst = scope.map Definition.name := by
  rw [← List.forall₂_eq_eq_eq, List.forall₂_map_left_iff, List.forall₂_map_right_iff]
  exact h.flip.imp fun _ _ h => h.1

/-- A name has one type. -/
theorem unique (hnodup : (scope.map Definition.name).Nodup) {x : String} {type type' : Ty}
    (hx : (x, type) ∈ definitions) (hx' : (x, type') ∈ definitions) : type = type' := by
  rw [← h.names] at hnodup
  have heq := List.inj_on_of_nodup_map hnodup hx hx' rfl
  exact (Prod.mk.inj heq).2

end Scope.Typed

/-- A table of definitions while it is being filled: what was registered has a property, and a name
that is bound is bound to the type of its definition. -/
structure Compiled (P : Ty → Prop) (definitions : List (String × Ty)) (t : Table) : Prop where
  exact : ∃ types, t.Exact types ∧ ∀ type ∈ types, P type
  labels : ∀ x code, t.labelCode? x = some code →
    ∃ type, (x, type) ∈ definitions ∧ t.codeOf type = .ok code

namespace Compiled
variable {P : Ty → Prop} {definitions : List (String × Ty)} {t u : Table}

theorem sound (h : Compiled P definitions t) : t.Sound := by
  obtain ⟨_, hexact, _⟩ := h.exact
  exact hexact.sound

theorem empty : Compiled P definitions {} :=
  ⟨⟨[], .empty, nofun⟩, fun x code hx => by simp [labelCode?] at hx⟩

theorem register (h : Compiled P definitions t) {type : Ty} {code : Int} (htype : P type)
    (hreg : t.register type = .ok (code, u)) : Compiled P definitions u := by
  obtain ⟨types, hexact, htypes⟩ := h.exact
  obtain ⟨rfl, _⟩ := register_eq t type hreg
  refine ⟨⟨_, hexact.addAll type, ?_⟩, fun x code hx => ?_⟩
  · exact List.forall_mem_append.mpr ⟨htypes, List.forall_mem_singleton.mpr htype⟩
  · rw [labelCode?, addAll_labels] at hx
    obtain ⟨type', hmem, hcode⟩ := h.labels x code hx
    exact ⟨type', hmem, (addAll_extends t type.parts).codeOf hcode⟩

theorem registerLabel (h : Compiled P definitions t) {name : String} {type : Ty} {code : Int}
    (hmem : (name, type) ∈ definitions) (htype : P type)
    (hreg : t.registerLabel name type = .ok (code, u)) : Compiled P definitions u := by
  obtain ⟨types, hexact, htypes⟩ := h.exact
  refine ⟨⟨_, hexact.registerLabel hreg, List.forall_mem_append.mpr ⟨htypes, ?_⟩⟩,
    fun x code' hx => ?_⟩
  · split
    · nofun
    · exact List.forall_mem_singleton.mpr htype
  · rcases registerLabel_eq_ok hreg with ⟨_, rfl⟩ | ⟨hnone, v, hv, rfl⟩
    · exact h.labels x code' hx
    · rw [labelCode?_bind (by simpa only [labelCode?, hv.labels] using hnone)] at hx
      split at hx
      · rename_i heq
        cases hx
        exact ⟨type, heq ▸ hmem, bind_extends.codeOf hv.found⟩
      · rw [labelCode?, hv.labels] at hx
        obtain ⟨type', hmem', hcode⟩ := h.labels x code' hx
        exact ⟨type', hmem', bind_extends.codeOf (hv.extended.codeOf hcode)⟩

/-- Every name is bound once its definition had its turn. -/
theorem bindAll (h : Compiled P definitions t) {more : List (String × Ty)}
    (hmore : ∀ p ∈ more, p ∈ definitions ∧ P p.2)
    (hbind : Program.bindAll t more = .ok u) :
    Compiled P definitions u ∧ t.Extends u ∧ ∀ p ∈ more, u.isBound p.1 = true := by
  induction more generalizing t with
  | nil =>
    cases hbind
    exact ⟨h, .refl _, nofun⟩
  | cons p more ih =>
    obtain ⟨v, hv, hbind⟩ := except_bind_eq_ok.mp hbind
    obtain ⟨⟨code, v'⟩, hreg, hv⟩ := except_bind_eq_ok.mp hv
    cases hv
    rw [liftWire_eq_ok] at hreg
    obtain ⟨hp, hrest⟩ := List.forall_mem_cons.mp hmore
    obtain ⟨hu, hext, hbound⟩ := ih (h.registerLabel hp.1 hp.2 hreg) hrest hbind
    have hfirst := Option.isSome_iff_exists.mpr ⟨code, registerLabel_bound hreg⟩
    exact ⟨hu, (registerLabel_extends hreg).trans hext,
      List.forall_mem_cons.mpr ⟨hext.isBound hfirst, hbound⟩⟩

theorem registerAll (h : Compiled P definitions t) {types : List Ty}
    (htypes : ∀ type ∈ types, P type) (hreg : Program.registerAll t types = .ok u) :
    Compiled P definitions u ∧ t.Extends u := by
  refine except_foldlM_invariant (I := fun v => Compiled P definitions v ∧ t.Extends v)
    (fun type htype v v' ⟨hv, hext⟩ hstep => ?_) hreg ⟨h, .refl t⟩
  obtain ⟨⟨code, w⟩, hw, hstep⟩ := except_bind_eq_ok.mp hstep
  cases hstep
  rw [liftWire_eq_ok] at hw
  exact ⟨hv.register (htypes type htype) hw, hext.trans (register_eq_ok hw).extended⟩

section Filled
variable {scope : Scope} (htyped : scope.Typed definitions)
  (hbound : ∀ p ∈ definitions, t.isBound p.1 = true)
include htyped hbound

theorem isBound {x : String} {e : TypeExpr} (hx : scope.Defines x e) : t.isBound x = true := by
  obtain ⟨type, hmem, _⟩ := htyped.lookup hx.1
  exact hbound _ hmem

variable (hnodup : (scope.map Definition.name).Nodup)
include hnodup

/-- A name stands for what its definition denotes, up to names of fields. -/
theorem named (h : Compiled P definitions t) {x : String} {type : Ty}
    (hmem : (x, type) ∈ definitions) :
    ∃ type', type.same type' = true ∧ t.follow (.named x) = t.follow type' := by
  obtain ⟨code, hcode⟩ := Option.isSome_iff_exists.mp (hbound _ hmem)
  obtain ⟨type', hmem', hfound⟩ := h.labels x code hcode
  obtain rfl := htyped.unique hnodup hmem hmem'
  obtain ⟨head, head', hfollow, hhead', hsame⟩ := codeOf_stands h.sound hfound
  have hx : t.follow (.named x) = .ok head' := by simp only [follow, resolve, hcode, hhead']
  cases type with
  | prim | composite =>
    cases hfollow
    exact ⟨head'.type, hsame, by rw [hx, follow_type]⟩
  | named z =>
    refine ⟨.named z, Ty.same_refl _, ?_⟩
    have hz : t.labelCode? z = some code := by
      rw [codeOf] at hfound
      split at hfound
      · cases hfound
        assumption
      · cases hfound
    rw [hx]
    simp only [follow, resolve, hz, hhead']

/-- A name of a constructed type shows the type that its definition denotes, up to names of
fields. -/
theorem named_composite (h : Compiled P definitions t) {x : String} {e : TypeExpr}
    (hx : scope.Defines x e) : ∃ c d, scope.typeOf e = .ok (.composite c) ∧
      t.follow (.named x) = .ok (.composite d) ∧ c.Rel (fun u v => u.same v = true) d := by
  obtain ⟨type, hmem, htype⟩ := htyped.lookup hx.1
  obtain ⟨c, rfl⟩ := hx.composite htype
  obtain ⟨type', hsame, hfollow⟩ := h.named htyped hbound hnodup hmem
  cases type' with
  | prim | named => simp [Ty.same] at hsame
  | composite d => exact ⟨c, d, htype, hfollow, Ty.same_composite.mp hsame⟩

/-- A type that is to be a function looks through to one. -/
theorem follow_function (h : Compiled P definitions t) {type : Ty}
    (htype : scope.IsFunction type) :
    ∃ args results modes, t.follow type = .ok (.composite (.func args results modes)) := by
  cases htype with
  | func args results modes => exact ⟨args, results, modes, rfl⟩
  | named hx =>
    obtain ⟨c, d, hc, hfollow, hrel⟩ := h.named_composite htyped hbound hnodup hx
    obtain ⟨_, _, _, heq⟩ := Scope.typeOf_func hc
    cases heq
    cases hrel with
    | func _ _ _ => exact ⟨_, _, _, hfollow⟩

variable (h : Compiled scope.Denoted definitions t)
include h

theorem callable {type : Ty} (htype : scope.IsFunction type) :
    ∃ f, t.former type = some f ∧ f.shape.Callable := by
  obtain ⟨_, _, _, hfollow⟩ := h.follow_function htyped hbound hnodup htype
  exact ⟨_, former_eq_some.mpr ⟨_, hfollow, rfl⟩, trivial⟩

theorem wellFormed {type : Ty} (htype : scope.Denoted type) : t.WellFormed type := by
  refine ⟨fun x hx => ?_, htype.labels, fun ms hms m hm => ?_⟩
  · obtain ⟨e, he⟩ := htype.names x hx
    exact isBound htyped hbound he
  · exact h.callable htyped hbound hnodup (htype.methods ms hms m hm)

theorem proper : t.Proper := by
  obtain ⟨types, hexact, htypes⟩ := h.exact
  refine ⟨hexact.sound, fun c hc => ?_⟩
  obtain ⟨type, htype, hpart⟩ := hexact.covered c hc
  exact h.wellFormed htyped hbound hnodup ((htypes type htype).part hpart)

end Filled

end Compiled

/-- An interface of which all types are well-formed: those in its table, those of its definitions
and those of the service that it declares. -/
structure Interface.WellFormed (interface : Interface) : Prop where
  table : interface.table.Proper
  definitions : ∀ p ∈ interface.definitions, interface.table.WellFormed p.2
  service : ∀ s, interface.service = some s →
    ∀ type ∈ s.init ++ [s.type], interface.table.WellFormed type

def Actor.exprs (actor : Actor) : List TypeExpr :=
  (actor.init.getD []).map (·.type) ++ [actor.body]

def Interface.serviceTypes (i : Interface) : List Ty :=
  match i.service with
  | none => []
  | some s => s.init ++ [s.type]

namespace Program
variable {program : Program}

/-- The definitions are bound in two rounds, of which the second takes the aliases. -/
theorem tableOf_compiled {P : Ty → Prop} {definitions : List (String × Ty)} {t : Table}
    (hdefinitions : ∀ p ∈ definitions, P p.2) (h : tableOf definitions = .ok t) :
    Compiled P definitions t ∧ ∀ p ∈ definitions, t.isBound p.1 = true := by
  obtain ⟨u, hu, ht⟩ := except_bind_eq_ok.mp h
  have hround : ∀ round : String × Ty → Bool, ∀ p ∈ definitions.filter round,
      p ∈ definitions ∧ P p.2 := fun round p hp =>
    ⟨List.mem_of_mem_filter hp, hdefinitions p (List.mem_of_mem_filter hp)⟩
  obtain ⟨hu, _, hfirst⟩ := Compiled.empty.bindAll (hround _) hu
  obtain ⟨ht, hext, hsecond⟩ := hu.bindAll (hround _) ht
  refine ⟨ht, fun p hp => ?_⟩
  cases halias : isAlias p.2 with
  | true => exact hsecond p (List.mem_filter.mpr ⟨hp, halias⟩)
  | false =>
    exact hext.isBound (hfirst p (List.mem_filter.mpr ⟨hp, by rw [halias]; rfl⟩))

/-- Names are bound without fault where those that they are bound to are bound before. -/
theorem bindAll_returns {t : Table} {definitions : List (String × Ty)}
    (h : ∀ p ∈ definitions, ∀ x, p.2 = .named x → t.isBound x = true) :
    ∃ u, bindAll t definitions = .ok u := by
  have hstep : ∀ p ∈ definitions, ∀ v, t.Extends v →
      ∃ v', (do return (← liftWire (v.registerLabel p.1 p.2)).2 : Except Failure Table) = .ok v' ∧
        t.Extends v' := by
    intro p hp v hv
    obtain ⟨code, v', hreg⟩ := registerLabel_returns fun x hx => hv.isBound (h p hp x hx)
    exact ⟨v', by rw [hreg]; rfl, hv.trans (registerLabel_extends hreg)⟩
  obtain ⟨u, hu, _⟩ := except_foldlM_returns definitions hstep (.refl t)
  exact ⟨u, hu⟩

theorem registerAll_returns {t : Table} {types : List Ty}
    (h : ∀ type ∈ types, ∀ x, type = .named x → t.isBound x = true) :
    ∃ u, registerAll t types = .ok u := by
  have hstep : ∀ type ∈ types, ∀ v, t.Extends v →
      ∃ v', (do return (← liftWire (v.register type)).2 : Except Failure Table) = .ok v' ∧
        t.Extends v' := by
    intro type htype v hv
    obtain ⟨code, v', hreg⟩ := register_returns fun x hx => hv.isBound (h type htype x hx)
    exact ⟨v', by rw [hreg]; rfl, hv.trans (register_eq_ok hreg).extended⟩
  obtain ⟨u, hu, _⟩ := except_foldlM_returns types hstep (.refl t)
  exact ⟨u, hu⟩

/-- What stands for a type that is a name is a definition of the other kind, which is bound in the
first round. -/
theorem tableOf_returns {scope : Scope} {definitions : List (String × Ty)}
    (h : scope.Typed definitions) : ∃ t, tableOf definitions = .ok t := by
  have hfirst : ∀ p ∈ definitions.filter (fun d => !isAlias d.2), ∀ x, p.2 = .named x →
      Table.isBound {} x = true := fun p hp x hx => by simp [isAlias, hx] at hp
  obtain ⟨u, hu⟩ := bindAll_returns hfirst
  obtain ⟨_, _, hbound⟩ := (Compiled.empty (P := fun _ => True)).bindAll
    (fun p hp => ⟨List.mem_of_mem_filter hp, trivial⟩) hu
  have hsecond : ∀ p ∈ definitions.filter (fun d => isAlias d.2), ∀ x, p.2 = .named x →
      u.isBound x = true := by
    intro p hp x hx
    obtain ⟨d, _, _, htype⟩ := exists_of_mem_right h (List.mem_of_mem_filter hp)
    obtain ⟨e, hdefines⟩ := Scope.defines_of_named (hx ▸ htype)
    obtain ⟨type, hmem, htype⟩ := h.lookup hdefines.1
    obtain ⟨c, rfl⟩ := hdefines.composite htype
    exact hbound _ (List.mem_filter.mpr ⟨hmem, rfl⟩)
  obtain ⟨t, ht⟩ := bindAll_returns hsecond
  exact ⟨t, except_bind_ok hu ht⟩

/-- What the expressions of a declared service denote. -/
theorem serviceType_eq_ok {scope : Scope} {actor : Actor} {service : ServiceType} :
    serviceType scope actor = .ok service ↔ service.name = actor.name ∧
      List.Forall₂ (fun (a : ArgExpr TypeExpr) type => scope.typeOf a.type = .ok type)
        (actor.init.getD []) service.init ∧
      scope.typeOf actor.body = .ok service.type := by
  constructor
  · intro h
    obtain ⟨init, hinit, h⟩ := except_bind_eq_ok.mp h
    obtain ⟨body, hbody, h⟩ := except_bind_eq_ok.mp h
    cases h
    exact ⟨rfl, except_mapM_eq_ok.mp hinit, hbody⟩
  · rintro ⟨hname, hinit, hbody⟩
    refine except_bind_ok (except_mapM_eq_ok.mpr hinit) (except_bind_ok hbody ?_)
    rw [← hname]
    rfl

/-- Each type of a declared service is what an expression of its declaration denotes. -/
theorem typeOf_of_serviceTypes {i : Interface} (h : Option.Rel (fun actor service =>
      serviceType program.definitions actor = .ok service) program.actor i.service)
    {type : Ty} (htype : type ∈ i.serviceTypes) : ∃ actor, program.actor = some actor ∧
      ∃ e ∈ actor.exprs, Scope.typeOf program.definitions e = .ok type := by
  unfold Interface.serviceTypes at htype
  cases hactor : program.actor with
  | none =>
    rw [hactor] at h
    generalize i.service = service at h htype
    cases h
    cases htype
  | some actor =>
    rw [hactor] at h
    generalize i.service = service at h htype
    cases h with
    | some hservice =>
      obtain ⟨_, hinit, hbody⟩ := serviceType_eq_ok.mp hservice
      refine ⟨actor, rfl, ?_⟩
      rcases List.mem_append.mp htype with htype | htype
      · obtain ⟨a, ha, htype⟩ := exists_of_mem_right hinit htype
        exact ⟨a.type, List.mem_append_left _ (List.mem_map_of_mem ha), htype⟩
      · obtain rfl := List.mem_singleton.mp htype
        exact ⟨actor.body, List.mem_append_right _ (List.mem_singleton_self _), hbody⟩

/-- What is checked of a declared service. -/
theorem checkActor_eq_ok {scope : Scope} {actor : Actor} (h : scope.checkActor actor = .ok ()) :
    (∀ e ∈ actor.exprs, scope.checkExpr e = .ok ()) ∧
      ∀ target p, actor.body = .name target p → scope.isService target = true := by
  obtain ⟨_, hargs, h⟩ := except_bind_eq_ok.mp h
  obtain ⟨_, hbody, h⟩ := except_bind_eq_ok.mp h
  refine ⟨List.forall_mem_append.mpr ⟨List.forall_mem_map.mpr (forM_eq_ok.mp hargs),
    List.forall_mem_singleton.mpr hbody⟩, fun target p heq => ?_⟩
  rw [heq] at h
  dsimp only at h
  split at h
  · assumption
  · cases h

theorem mapM_typed {scope : Scope} {definitions : List (String × Ty)} :
    scope.mapM (fun d => do return (d.name, ← scope.typeOf d.type)) = .ok definitions ↔
      scope.Typed definitions := by
  refine except_mapM_eq_ok.trans ⟨fun h => h.imp fun d p hp => ?_, fun h => h.imp fun d p hp => ?_⟩
  · obtain ⟨type, htype, hp⟩ := except_bind_eq_ok.mp hp
    cases hp
    exact ⟨rfl, htype⟩
  · obtain ⟨hname, htype⟩ := hp
    refine except_bind_ok htype ?_
    rw [← hname]
    rfl

/-- A program compiles exactly if it is accepted and its expressions denote types; the table binds
the definitions first and then holds the types of the service. -/
theorem interface_eq_ok {i : Interface} : program.interface = .ok i ↔
    program.check = .ok () ∧ i.program = program ∧
      Scope.Typed program.definitions i.definitions ∧
      Option.Rel (fun actor service => serviceType program.definitions actor = .ok service)
        program.actor i.service ∧
      ∃ t, tableOf i.definitions = .ok t ∧ registerAll t i.serviceTypes = .ok i.table := by
  unfold interface
  obtain ⟨source, table, definitions, service⟩ := i
  constructor
  · intro h
    obtain ⟨_, hcheck, h⟩ := except_bind_eq_ok.mp h
    obtain ⟨definitions, hdefinitions, h⟩ := except_bind_eq_ok.mp h
    obtain ⟨t, ht, h⟩ := except_bind_eq_ok.mp h
    refine ⟨liftCompile_eq_ok.mp hcheck, ?_⟩
    have htyped := mapM_typed.mp (liftCompile_eq_ok.mp hdefinitions)
    cases hactor : program.actor with
    | none =>
      rw [hactor] at h
      cases h
      exact ⟨rfl, htyped, .none, _, ht, rfl⟩
    | some actor =>
      rw [hactor] at h
      obtain ⟨service, hservice, h⟩ := except_bind_eq_ok.mp h
      obtain ⟨table, htable, h⟩ := except_bind_eq_ok.mp h
      cases h
      exact ⟨rfl, htyped, .some (liftCompile_eq_ok.mp hservice), t, ht, htable⟩
  · rintro ⟨hcheck, rfl, htyped, hservice, t, ht, htable⟩
    refine except_bind_ok (liftCompile_eq_ok.mpr hcheck)
      (except_bind_ok (liftCompile_eq_ok.mpr (mapM_typed.mpr htyped)) (except_bind_ok ht ?_))
    dsimp only at hservice ⊢
    cases hactor : source.actor with
    | none =>
      rw [hactor] at hservice
      cases hservice
      cases htable
      rfl
    | some actor =>
      rw [hactor] at hservice
      cases hservice with
      | some hservice =>
        exact except_bind_ok (liftCompile_eq_ok.mpr hservice) (except_bind_ok htable rfl)

/-- The table of a program holds types of its definitions and of its service, and binds every
definition. -/
theorem interface_compiled {P : Ty → Prop} {i : Interface} (h : program.interface = .ok i)
    (hdefinitions : ∀ p ∈ i.definitions, P p.2) (hservice : ∀ type ∈ i.serviceTypes, P type) :
    Compiled P i.definitions i.table ∧ ∀ p ∈ i.definitions, i.table.isBound p.1 = true := by
  obtain ⟨_, _, _, _, t, ht, htable⟩ := interface_eq_ok.mp h
  obtain ⟨hcompiled, hbound⟩ := tableOf_compiled hdefinitions ht
  obtain ⟨hcompiled', hext⟩ := hcompiled.registerAll hservice htable
  exact ⟨hcompiled', fun p hp => hext.isBound (hbound p hp)⟩

/-- An accepted program compiles if its expressions denote types: no fault comes from the table. -/
theorem interface_returns {definitions : List (String × Ty)} {service : Option ServiceType}
    (hcheck : program.check = .ok ()) (htyped : Scope.Typed program.definitions definitions)
    (hservice : Option.Rel (fun actor service =>
      serviceType program.definitions actor = .ok service) program.actor service) :
    ∃ i, program.interface = .ok i := by
  obtain ⟨t, ht⟩ := tableOf_returns htyped
  obtain ⟨_, hbound⟩ := tableOf_compiled (P := fun _ => True) (fun _ _ => trivial) ht
  have hnames : ∀ type ∈ Interface.serviceTypes ⟨program, t, definitions, service⟩,
      ∀ x, type = .named x → t.isBound x = true := by
    rintro _ htype x rfl
    obtain ⟨_, _, e, _, he⟩ := typeOf_of_serviceTypes hservice htype
    obtain ⟨e', hdefines⟩ := Scope.defines_of_named he
    exact Compiled.isBound htyped hbound hdefines
  obtain ⟨table, htable⟩ := registerAll_returns hnames
  exact ⟨⟨program, table, definitions, service⟩,
    interface_eq_ok.mpr ⟨hcheck, rfl, htyped, hservice, t, ht, htable⟩⟩

theorem Grammatical.exprs (h : program.Grammatical) {actor : Actor}
    (hactor : program.actor = some actor) {e : TypeExpr} (he : e ∈ actor.exprs) :
    Idl.Grammatical e := by
  obtain ⟨hbody, _, hinit⟩ := h.actor actor hactor
  rcases List.mem_append.mp he with he | he
  · obtain ⟨a, ha, rfl⟩ := List.mem_map.mp he
    exact hinit a ha
  · exact List.mem_singleton.mp he ▸ hbody

/-- The types of a program whose expressions are grammatical are what accepted expressions denote. -/
theorem interface_denoted {i : Interface} (hgrammatical : program.Grammatical)
    (h : program.interface = .ok i) :
    (∀ p ∈ i.definitions, Scope.Denoted program.definitions p.2) ∧
      ∀ type ∈ i.serviceTypes, Scope.Denoted program.definitions type := by
  obtain ⟨hcheck, _, htyped, hservice, _⟩ := interface_eq_ok.mp h
  obtain ⟨haccepted, hactor⟩ := check_eq_ok.mp hcheck
  constructor
  · intro p hp
    obtain ⟨d, hd, _, htype⟩ := exists_of_mem_right htyped hp
    exact Scope.typeOf_denoted (hgrammatical.definitions d hd) (haccepted.exprs d hd) htype
  · intro type htype
    obtain ⟨actor, heq, e, he, htype⟩ := typeOf_of_serviceTypes hservice htype
    exact Scope.typeOf_denoted (hgrammatical.exprs heq he)
      ((checkActor_eq_ok (hactor actor heq)).1 e he) htype

/-- The types of a program whose expressions are grammatical are well-formed. -/
theorem interface_wellFormed {interface : Interface} (hgrammatical : program.Grammatical)
    (h : program.interface = .ok interface) : interface.WellFormed := by
  obtain ⟨hcheck, _, htyped, _, _⟩ := interface_eq_ok.mp h
  obtain ⟨haccepted, _⟩ := check_eq_ok.mp hcheck
  obtain ⟨hdefinitions, htypes⟩ := interface_denoted hgrammatical h
  obtain ⟨hcompiled, hbound⟩ := interface_compiled h hdefinitions htypes
  have hnodup := Scope.names_nodup haccepted.names
  have hwell {type : Ty} (htype : Scope.Denoted program.definitions type) :=
    hcompiled.wellFormed htyped hbound hnodup htype
  refine ⟨hcompiled.proper htyped hbound hnodup, fun p hp => hwell (hdefinitions p hp), ?_⟩
  intro s hs type htype
  refine hwell (htypes type ?_)
  rwa [Interface.serviceTypes, hs]

end Program

namespace Loading
variable {σ α β : Type} {P : α → Prop} {Q : β → Prop}

def Ensures (x : Loading σ α) (P : α → Prop) : Prop :=
  ∀ s a s', x.run.run s = (.ok a, s') → P a

theorem Ensures.pure {a : α} (h : P a) : Ensures (Pure.pure a : Loading σ α) P := by
  rintro s b s' hb
  cases hb
  exact h

theorem Ensures.throw (e : Failure) : Ensures (MonadExcept.throw e : Loading σ α) P := by
  rintro s a s' h
  cases h

theorem Ensures.lift {r : Except Failure α} (h : ∀ a, r = .ok a → P a) :
    Ensures (liftM r : Loading σ α) P := by
  rintro s a s' ha
  cases r with
  | error e => cases ha
  | ok b =>
    cases ha
    exact h _ rfl

theorem Ensures.bind {x : Loading σ α} {f : α → Loading σ β} (hx : Ensures x P)
    (hf : ∀ a, P a → Ensures (f a) Q) : Ensures (x >>= f) Q := by
  rintro s b s' h
  simp only [ExceptT.run_bind, StateT.run_bind] at h
  rcases hrun : x.run.run s with ⟨_ | a, s₁⟩
  · rw [hrun] at h
    cases h
  · rw [hrun] at h
    exact hf a (hx s a s₁ hrun) s₁ b s' h

/-- What comes first does not matter. -/
theorem Ensures.after {x : Loading σ α} {f : α → Loading σ β} (hf : ∀ a, Ensures (f a) Q) :
    Ensures (x >>= f) Q :=
  Ensures.bind (P := fun _ => True) (fun _ _ _ _ => trivial) fun a _ => hf a

theorem Ensures.ite {c : Prop} [Decidable c] {x y : Loading σ α} (hx : Ensures x P)
    (hy : Ensures y P) : Ensures (if c then x else y) P := by
  split
  · exact hx
  · exact hy

theorem Ensures.foldlM {f : β → α → Loading σ β} (as : List α) {b : β} (hb : Q b)
    (hf : ∀ b, Q b → ∀ a, Ensures (f b a) Q) : Ensures (as.foldlM f b) Q := by
  induction as generalizing b with
  | nil => exact .pure hb
  | cons a as ih => exact (hf b hb a).bind fun b' hb' => ih hb'

end Loading

namespace Import
open Loading

/-- Merging imports adds definitions that were parsed. -/
theorem merge_grammatical {σ : Type} (load : Loader σ) (depth : Nat) (opened merged : List String)
    {program : Program} (h : ∀ d ∈ program.definitions, Grammatical d.type) :
    Ensures (merge load depth opened merged program) fun r => ∀ d ∈ r.1, Grammatical d.type := by
  induction depth generalizing opened merged program with
  | zero => exact .throw _
  | succ depth ih =>
    refine Ensures.bind
      (P := fun r : List Definition × List String => ∀ d ∈ r.1, Grammatical d.type)
      (.foldlM _ nofun fun r hr i => ?_) fun r hr => .pure (List.forall_mem_append.mpr ⟨hr, h⟩)
    refine .ite (.throw _) (.ite (.pure hr) ?_)
    refine .after fun text => Ensures.bind (.lift fun file => Program.ofSource_grammatical)
      fun file hfile => (ih _ _ hfile.definitions).bind fun found hfound => .pure ?_
    exact List.forall_mem_append.mpr ⟨hr, hfound⟩

end Import

namespace Interface
open Loading

/-- What holds of every interface of a program whose expressions are grammatical holds of what is
compiled from source, whatever is loaded. -/
theorem ofSourceWith_ensures {σ : Type} {P : Interface → Prop} (load : Loader σ) (depth : Nat)
    (source : String)
    (h : ∀ (program : Program) (i : Interface), program.Grammatical → program.interface = .ok i → P i) :
    Ensures (ofSourceWith load depth source) P := by
  refine Ensures.bind (.lift fun program => Program.ofSource_grammatical) fun program hprogram => ?_
  refine (Import.merge_grammatical load depth [] [] hprogram.definitions).bind fun merged hm => ?_
  exact .lift fun i => h _ i ⟨hm, hprogram.actor⟩

theorem ofSource_ensures {P : Interface → Prop} {source : String} {interface : Interface}
    (h : ofSource source = .ok interface)
    (hP : ∀ (program : Program) (i : Interface), program.Grammatical → program.interface = .ok i → P i) :
    P interface :=
  ofSourceWith_ensures Loader.nothing 1 source hP () interface () (Prod.ext h rfl)

/-- Every type of source that compiles is well-formed. -/
theorem ofSource_wellFormed {source : String} {interface : Interface}
    (h : ofSource source = .ok interface) : interface.WellFormed :=
  ofSource_ensures h fun _ _ => Program.interface_wellFormed

/-- The table of source that compiles holds nothing twice and nothing that was not registered. -/
theorem ofSource_exact {source : String} {interface : Interface}
    (h : ofSource source = .ok interface) : ∃ types, interface.table.Exact types :=
  ofSource_ensures (P := fun i => ∃ types, i.table.Exact types) h fun _ _ _ hi => by
    obtain ⟨hcompiled, _⟩ := Program.interface_compiled (P := fun _ => True) hi
      (fun _ _ => trivial) fun _ _ => trivial
    obtain ⟨types, hexact, _⟩ := hcompiled.exact
    exact ⟨types, hexact⟩

/-- What a method takes and what it gives is well-formed. -/
theorem WellFormed.method {interface : Interface} (h : interface.WellFormed) {name : String}
    {signature : Signature} (hmethod : interface.method name = .ok signature) :
    ∀ type ∈ signature.args ++ signature.results, interface.table.WellFormed type := by
  -- A name is looked through to a type that is well-formed, and so are its members.
  have hfollow : ∀ {type : Ty} {head : Head}, interface.table.WellFormed type →
      liftWire (interface.table.follow type) = .ok head → interface.table.WellFormed head.type := by
    intro type head htype hhead
    obtain ⟨head', hhead', hwell⟩ := h.table.head htype
    rw [liftWire_eq_ok, hhead'] at hhead
    cases hhead
    exact hwell
  unfold Interface.method at hmethod
  split at hmethod
  · cases hmethod
  rename_i service hservice
  have hself := h.service service hservice service.type
    (List.mem_append_right _ (List.mem_singleton_self _))
  obtain ⟨head, hhead, hmethod⟩ := except_bind_eq_ok.mp hmethod
  split at hmethod
  · rename_i methods
    split at hmethod
    · cases hmethod
    · rename_i m hm
      have hmember := (hfollow hself hhead).member
        (List.mem_map_of_mem (List.mem_of_find?_eq_some hm))
      obtain ⟨head', hhead', hmethod⟩ := except_bind_eq_ok.mp hmethod
      split at hmethod
      · cases hmethod
        exact fun type htype => (hfollow hmember hhead').member htype
      · cases hmethod
  · cases hmethod

end Interface

end Didl.Idl
