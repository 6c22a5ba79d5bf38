import Didl.Proofs.Independence

namespace Didl.Idl

open Relation

/-- What holds of names, primitive types and blobs, and of a form wherever it holds of its members,
holds of every expression. -/
@[elab_as_elim]
theorem TypeExpr.induct_members {P : TypeExpr → Prop} (name : ∀ x p, P (.name x p))
    (primitive : ∀ keyword, P (.primitive keyword)) (blob : P .blob)
    (form : ∀ f : Form TypeExpr, (∀ e ∈ f.members, P e) → P (.form f)) : ∀ e, P e
  | .name x p => name x p
  | .primitive keyword => primitive keyword
  | .blob => blob
  | .form f => form f fun e _ => induct_members name primitive blob form e
termination_by e => sizeOf e
decreasing_by
  have := Form.sizeOf_lt_of_mem ‹_›
  simp
  omega

/-- A check of each item against those in front succeeds where no two items have one key; `P` is
what else is checked. -/
theorem check_of_nodup {α κ ε : Type} {key : α → κ} {P : α → Prop}
    {check : List κ → List α → Except ε Unit} (hnil : ∀ seen, check seen [] = .ok ())
    (hcons : ∀ seen a as, key a ∉ seen → P a → check (key a :: seen) as = .ok () →
      check seen (a :: as) = .ok ())
    {as : List α} (hnodup : (as.map key).Nodup) (hP : ∀ a ∈ as, P a) {seen : List κ}
    (hnew : ∀ a ∈ as, key a ∉ seen) : check seen as = .ok () := by
  induction as generalizing seen with
  | nil => exact hnil seen
  | cons a as ih =>
    obtain ⟨hfirst, hnodup⟩ := List.nodup_cons.mp hnodup
    obtain ⟨ha, hP⟩ := List.forall_mem_cons.mp hP
    obtain ⟨hunseen, hnew⟩ := List.forall_mem_cons.mp hnew
    refine hcons seen a as hunseen ha (ih hnodup hP fun b hb hseen => ?_)
    rcases List.mem_cons.mp hseen with heq | hseen
    · exact hfirst (heq ▸ List.mem_map_of_mem hb)
    · exact hnew b hb hseen

namespace Scope
variable {p q : Scope} {x : String} {e : TypeExpr}

theorem checkDefined_eq_ok {position : Position} :
    p.checkDefined x position = .ok () ↔ p.isDefined x = true := by
  unfold checkDefined
  split <;> simp_all

theorem checkSlots_eq_ok {slots : List (Slot TypeExpr)} : p.checkSlots [] slots = .ok () ↔
    (slots.map Slot.id).Nodup ∧
      ∀ s ∈ slots, ∀ x, s.content = .named x → p.isDefined x = true := by
  constructor
  · intro h
    obtain ⟨hnodup, hnamed⟩ := slots_checked h
    exact ⟨hnodup, fun s hs x heq => checkDefined_eq_ok.mp (hnamed s hs x heq)⟩
  · rintro ⟨hnodup, hnamed⟩
    refine check_of_nodup (P := fun s : Slot TypeExpr =>
      ∀ x, s.content = .named x → p.isDefined x = true) (fun _ => rfl)
      (fun seen s rest hnew hs hrest => ?_) hnodup hnamed nofun
    rw [checkSlots, if_neg (by simpa using hnew)]
    split
    · rename_i x heq
      exact except_bind_ok (checkDefined_eq_ok.mpr (hs x heq)) hrest
    · exact hrest

theorem checkMethods_eq_ok {methods : List (MethodExpr TypeExpr)} :
    p.checkMethods [] methods = .ok () ↔ (methods.map MethodExpr.name).Nodup ∧
      ∀ m ∈ methods, ∀ target position, m.type = .name target position →
        p.isFunction target = true := by
  refine ⟨methods_checked, fun ⟨hnodup, hnamed⟩ => ?_⟩
  refine check_of_nodup (P := fun m : MethodExpr TypeExpr => ∀ target position,
    m.type = .name target position → p.isFunction target = true) (fun _ => rfl)
    (fun seen m rest hnew hm hrest => ?_) hnodup hnamed nofun
  rw [checkMethods, if_neg (by simpa using hnew)]
  split
  · rename_i target position heq
    rw [if_pos (hm target position heq)]
    exact hrest
  · exact hrest

theorem checkExpr_of_form {f : Form TypeExpr} (hform : p.checkForm f = .ok ())
    (hmembers : ∀ e ∈ f.members, p.checkExpr e = .ok ()) : p.checkExpr (.form f) = .ok () := by
  rw [checkExpr, TypeExpr.fold_form, ← checkExpr, Form.map_fst, Form.members_map]
  exact except_bind_ok hform (forM_eq_ok.mpr (List.forall_mem_map.mpr hmembers))

section Mono
variable (hwithin : Within p q)
include hwithin

theorem isDefined_mono (h : p.isDefined x = true) : q.isDefined x = true := by
  obtain ⟨e, he⟩ := Option.isSome_iff_exists.mp h
  exact Option.isSome_iff_exists.mpr ⟨e, hwithin x e he⟩

variable (hacyclic : ∀ x, ¬ TransGen q.Holds x x)
include hacyclic

theorem canonical_mono {z : String} (h : p.canonical x = .ok (z, e)) :
    q.canonical x = .ok (z, e) :=
  (canonical_eq_ok hacyclic).mpr ((standsFor_of_lookThrough h).mono hwithin)

theorem isFunction_mono (h : p.isFunction x = true) : q.isFunction x = true := by
  unfold isFunction at h
  split at h
  · rename_i hcanonical
    rw [isFunction, canonical_mono hwithin hacyclic hcanonical]
  · cases h

theorem isService_mono (h : p.isService x = true) : q.isService x = true := by
  unfold isService at h
  split at h
  · rename_i hcanonical
    rw [isService, canonical_mono hwithin hacyclic hcanonical]
  · cases h

theorem checkForm_mono {f : Form TypeExpr} (h : p.checkForm f = .ok ()) :
    q.checkForm f = .ok () := by
  cases f with
  | opt | vec | func => exact h
  | record fields | variant fields =>
    obtain ⟨slots, hslots, h⟩ := except_bind_eq_ok.mp h
    obtain ⟨hnodup, hnamed⟩ := checkSlots_eq_ok.mp h
    exact except_bind_ok hslots (checkSlots_eq_ok.mpr
      ⟨hnodup, fun s hs x heq => isDefined_mono hwithin (hnamed s hs x heq)⟩)
  | service methods =>
    obtain ⟨hnodup, hnamed⟩ := checkMethods_eq_ok.mp h
    exact checkMethods_eq_ok.mpr ⟨hnodup, fun m hm target position heq =>
      isFunction_mono hwithin hacyclic (hnamed m hm target position heq)⟩

/-- An expression keeps the rules wherever there are the definitions and perhaps more. -/
theorem checkExpr_mono (h : p.checkExpr e = .ok ()) : q.checkExpr e = .ok () := by
  induction e using TypeExpr.induct_members with
  | name x _ =>
    exact checkDefined_eq_ok.mpr (isDefined_mono hwithin (checkDefined_eq_ok.mp h))
  | primitive | blob => rfl
  | form f ih =>
    obtain ⟨hform, hmembers⟩ := checkExpr_form h
    exact checkExpr_of_form (checkForm_mono hwithin hacyclic hform) fun e he =>
      ih e he (hmembers e he)

theorem checkActor_mono {actor : Actor} (h : p.checkActor actor = .ok ()) :
    q.checkActor actor = .ok () := by
  obtain ⟨_, hargs, h⟩ := except_bind_eq_ok.mp h
  obtain ⟨_, hbody, hservice⟩ := except_bind_eq_ok.mp h
  refine except_bind_ok (forM_eq_ok.mpr fun a ha =>
    checkExpr_mono hwithin hacyclic (forM_eq_ok.mp hargs a ha))
    (except_bind_ok (checkExpr_mono hwithin hacyclic hbody) ?_)
  split
  · rename_i target position heq
    rw [heq] at hservice
    dsimp only at hservice
    split at hservice
    · rename_i htarget
      rw [if_pos (isService_mono hwithin hacyclic htarget)]
    · cases hservice
  · rfl

end Mono

/-- What a record holds is what its fields hold, shorthands written out. -/
theorem heldNames_record (fields : List (FieldExpr TypeExpr)) :
    (TypeExpr.form (.record fields)).heldNames = (do
      let slots ← Layout.slots false fields
      return (← slots.mapM fun s => s.expr.heldNames).flatten) := by
  unfold TypeExpr.heldNames
  rw [TypeExpr.fold_form, ← TypeExpr.heldNames, Form.map]
  dsimp only
  rw [Layout.slots, Layout.slotsFrom_map, Layout.slots]
  cases Layout.slotsFrom false 0 fields with
  | error e => rfl
  | ok slots =>
    refine congrArg (fun held : Except CompileFault (List (List String)) =>
      held >>= fun held => pure held.flatten) ((List.mapM_map ..).trans ?_)
    congr 1
    funext slot
    obtain ⟨id, name, content, position⟩ := slot
    cases content <;> rfl

/-- What a checked expression holds can be told, and it is defined. -/
theorem heldNames_of_checked (h : p.checkExpr e = .ok ()) :
    ∃ held, e.heldNames = .ok held ∧ ∀ x ∈ held, p.isDefined x = true := by
  induction e using TypeExpr.induct with
  | name x position =>
    exact ⟨[x], rfl, fun y hy => List.mem_singleton.mp hy ▸ checkDefined_eq_ok.mp h⟩
  | primitive | blob => exact ⟨[], rfl, nofun⟩
  | form f ih =>
    cases f with
    | opt | vec | variant | func | service =>
      refine ⟨[], ?_, nofun⟩
      rw [TypeExpr.heldNames, TypeExpr.fold_form]
      rfl
    | record fields =>
      obtain ⟨slots, hslots, _⟩ := except_bind_eq_ok.mp (checkExpr_form h).1
      have hlayout : (Form.record fields).layout = .ok (.record (slots.map Slot.field)) :=
        except_bind_ok hslots rfl
      obtain ⟨_, hchecked⟩ := layout_checked h hlayout
      have htold : ∀ s ∈ slots, ∃ held, s.expr.heldNames = .ok held ∧
          ∀ x ∈ held, p.isDefined x = true := by
        intro s hs
        have hmem : s.expr ∈ (Composite.record (slots.map Slot.field)).members := by
          rw [Composite.members, List.map_map]
          exact List.mem_map_of_mem (f := fun s => s.expr) hs
        exact ih _ hlayout s.expr hmem (hchecked _ hmem)
      obtain ⟨lists, hlists⟩ := exists_forall₂ htold
      refine ⟨lists.flatten, ?_, fun x hx => ?_⟩
      · rw [heldNames_record]
        exact except_bind_ok hslots (except_bind_ok
          (except_mapM_eq_ok.mpr (hlists.imp fun _ _ h => h.1)) rfl)
      · obtain ⟨held, hheld, hx⟩ := List.mem_flatten.mp hx
        obtain ⟨s, _, _, hdefined⟩ := exists_of_mem_right hlists hheld
        exact hdefined x hx

/-- Where all that is held was defined before, what is defined since is in no circle. -/
theorem acyclic_mono (hwithin : Within p q) (hacyclic : ∀ x, ¬ TransGen p.Holds x x)
    (hheld : ∀ x y, q.Holds x y → p.isDefined y = true) (x : String) :
    ¬ TransGen q.Holds x x := by
  have hback : ∀ {x y}, p.isDefined x = true → q.Holds x y → p.Holds x y := by
    rintro x y hx ⟨e, held, he, hrest⟩
    obtain ⟨e', he'⟩ := Option.isSome_iff_exists.mp hx
    obtain rfl := Option.some.inj ((hwithin x e' he').symm.trans he)
    exact ⟨e', held, he', hrest⟩
  have hpath : ∀ {x y}, TransGen q.Holds x y → p.isDefined x = true → TransGen p.Holds x y := by
    intro x y h
    induction h using TransGen.head_induction_on with
    | single h => exact fun hx => .single (hback hx h)
    | head h _ ih => exact fun hx => .head (hback hx h) (ih (hheld _ _ h))
  intro h
  obtain ⟨y, _, hlast⟩ := TransGen.tail'_iff.mp h
  exact hacyclic x (hpath h (hheld y x hlast))

section Grow
variable {d : Definition} (hp : p.Accepted) (hnew : d.name ∉ p.map Definition.name)
include hp hnew

theorem Accepted.nodup_grow : ((p ++ [d]).map Definition.name).Nodup := by
  rw [List.map_append, List.nodup_append']
  refine ⟨names_nodup hp.names, List.nodup_singleton _, ?_⟩
  simpa using hnew

theorem Accepted.within_grow : Within p (p ++ [d]) :=
  within_of_subset (List.subset_append_left _ _) (hp.nodup_grow hnew)

variable (hreserved : Keyword.isReserved d.name = false) (hcheck : p.checkExpr d.type = .ok ())
include hreserved hcheck

/-- A definition of a new name joins an accepted program. -/
theorem Accepted.grow : Accepted (p ++ [d]) := by
  have hnodup := hp.nodup_grow hnew
  have hwithin := hp.within_grow hnew
  have hexprs : ∀ d' ∈ p ++ [d], p.checkExpr d'.type = .ok () :=
    List.forall_mem_append.mpr ⟨hp.exprs, List.forall_mem_singleton.mpr hcheck⟩
  have htold : ∀ x e, body? (p ++ [d]) x = some e →
      ∃ held, e.heldNames = .ok held ∧ ∀ y ∈ held, p.isDefined y = true := by
    intro x e he
    obtain ⟨d', hd', _, rfl⟩ := (body?_eq_some hnodup).mp he
    exact heldNames_of_checked (hexprs d' hd')
  have hacyclic : ∀ x, ¬ TransGen (Holds (p ++ [d])) x x := by
    refine acyclic_mono hwithin hp.acyclic ?_
    rintro x y ⟨e, held, he, hheld, hy⟩
    obtain ⟨held', hheld', hdefined⟩ := htold x e he
    rw [hheld] at hheld'
    cases hheld'
    exact hdefined y hy
  refine ⟨(checkNames_eq_ok _ _).mpr ⟨?_, hnodup⟩, checkRecursion_eq_ok.mpr ⟨?_, hacyclic⟩, ?_⟩
  · exact List.forall_mem_append.mpr ⟨((checkNames_eq_ok _ _).mp hp.names).1,
      List.forall_mem_singleton.mpr ⟨hreserved, List.not_mem_nil⟩⟩
  · intro x e he
    obtain ⟨held, hheld, _⟩ := htold x e he
    exact ⟨held, hheld⟩
  · exact fun d' hd' => checkExpr_mono hwithin hacyclic (hexprs d' hd')

end Grow

/-- What the definitions of a scope denote is determined. -/
theorem Typed.eq {definitions definitions' : List (String × Ty)} (h : p.Typed definitions)
    (h' : p.Typed definitions') : definitions = definitions' := by
  rw [← List.forall₂_eq_eq_eq]
  refine (forall₂_comp h.flip h').imp ?_
  rintro a a' ⟨d, ⟨hname, htype⟩, hname', htype'⟩
  rw [htype] at htype'
  exact Prod.ext (hname.trans hname'.symm) (Except.ok.inj htype')

end Scope

/-- A program compiles with a definition of a new name too, and what was defined keeps its types. -/
theorem Program.interface_grow {program : Program} {i : Interface} (h : program.interface = .ok i)
    {d : Definition} (hnew : d.name ∉ i.definitions.map Prod.fst)
    (hreserved : Keyword.isReserved d.name = false)
    (hcheck : Scope.checkExpr program.definitions d.type = .ok ()) {type : Ty}
    (htype : Scope.typeOf program.definitions d.type = .ok type) :
    ∃ j, Program.interface { program with definitions := program.definitions ++ [d] } = .ok j ∧
      j.definitions = i.definitions ++ [(d.name, type)] := by
  obtain ⟨haccept, _, htyped, hservice, _⟩ := interface_eq_ok.mp h
  obtain ⟨haccepted, hactor⟩ := check_eq_ok.mp haccept
  rw [htyped.names] at hnew
  have hgrown := haccepted.grow hnew hreserved hcheck
  have hwithin := haccepted.within_grow hnew
  have hmono {e : TypeExpr} {type : Ty}
      (he : Scope.typeOf program.definitions e = .ok type) :
      Scope.typeOf (program.definitions ++ [d]) e = .ok type :=
    Scope.typeOf_mono hwithin haccepted hgrown he
  have htyped' : Scope.Typed (program.definitions ++ [d]) (i.definitions ++ [(d.name, type)]) :=
    List.rel_append (htyped.imp fun _ _ h => ⟨h.1, hmono h.2⟩) (.cons ⟨rfl, hmono htype⟩ .nil)
  have hcheck' :
      Program.check { program with definitions := program.definitions ++ [d] } = .ok () :=
    check_eq_ok.mpr ⟨hgrown, fun actor heq =>
      Scope.checkActor_mono hwithin hgrown.acyclic (hactor actor heq)⟩
  have hservice' : Option.Rel (fun actor service =>
      serviceType (program.definitions ++ [d]) actor = .ok service) program.actor i.service := by
    generalize program.actor = actor, i.service = service at hservice
    cases hservice with
    | none => exact .none
    | some hservice =>
      obtain ⟨hname, hinit, hbody⟩ := serviceType_eq_ok.mp hservice
      exact .some (serviceType_eq_ok.mpr ⟨hname, hinit.imp fun _ _ => hmono, hmono hbody⟩)
  obtain ⟨j, hj⟩ := interface_returns hcheck' htyped' hservice'
  obtain ⟨_, _, htyped'', _, _⟩ := interface_eq_ok.mp hj
  exact ⟨j, hj, htyped''.eq htyped'⟩

end Didl.Idl
