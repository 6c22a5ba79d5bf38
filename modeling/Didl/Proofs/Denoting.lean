import Didl.Idl.Check
import Didl.Proofs.EntryFormat
import Didl.Proofs.Forms
import Didl.Proofs.Parsing
import Didl.Proofs.Steps

namespace Didl.Idl

/-- What a form in the words of the language lays out is in these words. -/
theorem Grammatical.holds {f : Form TypeExpr} (h : Grammatical (.form f)) {e : TypeExpr}
    (he : f.Holds e) : Grammatical e := by
  cases h with
  | form hmembers _ =>
    cases he with
    | member he => exact hmembers e he
    | name x p => exact .name x p
    | null => exact .primitive (by decide)

/-- Refusing what was seen before leaves no two that are the same; `P` is what else is checked. -/
theorem nodup_of_seen {α κ ε : Type} {key : α → κ} {P : α → Prop}
    {check : List κ → List α → Except ε Unit}
    (hcons : ∀ seen a as, check seen (a :: as) = .ok () →
      key a ∉ seen ∧ P a ∧ check (key a :: seen) as = .ok ())
    {seen : List κ} {as : List α} (h : check seen as = .ok ()) :
    (as.map key).Nodup ∧ (∀ a ∈ as, key a ∉ seen) ∧ ∀ a ∈ as, P a := by
  induction as generalizing seen with
  | nil => exact ⟨.nil, nofun, nofun⟩
  | cons a as ih =>
    obtain ⟨hnew, hP, hrest⟩ := hcons seen a as h
    obtain ⟨hnodup, hunseen, hall⟩ := ih hrest
    refine ⟨List.nodup_cons.mpr ⟨fun hmem => ?_, hnodup⟩, ?_, List.forall_mem_cons.mpr ⟨hP, hall⟩⟩
    · obtain ⟨b, hb, hkey⟩ := List.mem_map.mp hmem
      exact hunseen b hb (hkey ▸ List.mem_cons_self)
    · exact List.forall_mem_cons.mpr
        ⟨hnew, fun b hb hseen => hunseen b hb (List.mem_cons_of_mem _ hseen)⟩

namespace Scope
variable {scope : Scope}

theorem names_nodup (h : scope.checkNames [] = .ok ()) : (scope.map Definition.name).Nodup := by
  refine (nodup_of_seen (P := fun _ => True) (fun seen d rest h => ?_) h).1
  rw [checkNames] at h
  split at h
  · cases h
  · split at h
    · cases h
    · rename_i hseen
      exact ⟨by simpa using hseen, trivial, h⟩

theorem slots_checked {α : Type} {slots : List (Slot α)}
    (h : scope.checkSlots [] slots = .ok ()) : (slots.map Slot.id).Nodup ∧
      ∀ s ∈ slots, ∀ x, s.content = .named x → scope.checkDefined x s.position = .ok () := by
  refine (nodup_of_seen (P := fun s : Slot α =>
    ∀ x, s.content = .named x → scope.checkDefined x s.position = .ok ())
    (fun seen slot rest h => ?_) h).imp_right And.right
  rw [checkSlots] at h
  split at h
  · cases h
  · rename_i hseen
    refine ⟨by simpa using hseen, ?_⟩
    dsimp only at h
    split at h
    · rename_i x heq
      obtain ⟨_, hdefined, h⟩ := except_bind_eq_ok.mp h
      refine ⟨fun x' heq' => ?_, h⟩
      cases heq.symm.trans heq'
      exact hdefined
    · rename_i hnot
      exact ⟨fun x heq => absurd heq (hnot x), h⟩

theorem methods_checked {methods : List (MethodExpr TypeExpr)}
    (h : scope.checkMethods [] methods = .ok ()) : (methods.map MethodExpr.name).Nodup ∧
      ∀ m ∈ methods, ∀ target p, m.type = .name target p → scope.isFunction target = true := by
  refine (nodup_of_seen (P := fun m : MethodExpr TypeExpr =>
    ∀ target p, m.type = .name target p → scope.isFunction target = true)
    (fun seen method rest h => ?_) h).imp_right And.right
  rw [checkMethods] at h
  split at h
  · cases h
  · rename_i hseen
    refine ⟨by simpa using hseen, ?_⟩
    dsimp only at h
    split at h
    · rename_i target p heq
      split at h
      · rename_i hfunction
        refine ⟨fun target' p' heq' => ?_, h⟩
        cases heq.symm.trans heq'
        exact hfunction
      · cases h
    · rename_i hnot
      exact ⟨fun target p heq => absurd heq (hnot target p), h⟩

/-- A definition that is neither an alias nor another word for a primitive type. -/
def Defines (scope : Scope) (x : String) (e : TypeExpr) : Prop :=
  scope.body? x = some e ∧ (e = .blob ∨ ∃ f, e = .form f)

inductive IsFunction (scope : Scope) : Ty → Prop
  | func (args results : List Ty) (modes : List Mode) :
      IsFunction scope (.composite (.func args results modes))
  | named {x : String} {args results : List (ArgExpr TypeExpr)} {modes : List String} :
      scope.Defines x (.form (.func args results modes)) → IsFunction scope (.named x)

/-- What an accepted expression denotes: names of definitions, labels in order, and methods that are
functions. -/
structure Denoted (scope : Scope) (type : Ty) : Prop where
  names : ∀ x ∈ type.names, ∃ e, scope.Defines x e
  labels : ∀ c ∈ type.parts, c.shape.Ascends
  methods : ∀ ms, .service ms ∈ type.parts → ∀ m ∈ ms, scope.IsFunction m.type

theorem Denoted.prim (p : Prim) : scope.Denoted (.prim p) := ⟨nofun, nofun, nofun⟩

theorem Denoted.composite {c : Composite Ty} (hmembers : ∀ m ∈ c.members, scope.Denoted m)
    (hlabels : c.shape.Ascends)
    (hmethods : ∀ ms, c = .service ms → ∀ m ∈ ms, scope.IsFunction m.type) :
    scope.Denoted (.composite c) := by
  refine ⟨fun x hx => ?_, fun d hd => ?_, fun ms hms m hm => ?_⟩
  · rw [Ty.names_composite] at hx
    obtain ⟨m, hm, hx⟩ := List.mem_flatMap.mp hx
    exact (hmembers m hm).names x hx
  · rw [Ty.parts_composite] at hd
    rcases List.mem_cons.mp hd with rfl | hd
    · exact hlabels
    · obtain ⟨n, hn, hd⟩ := List.mem_flatMap.mp hd
      exact (hmembers n hn).labels d hd
  · rw [Ty.parts_composite] at hms
    rcases List.mem_cons.mp hms with heq | hms
    · exact hmethods ms heq.symm m hm
    · obtain ⟨n, hn, hms⟩ := List.mem_flatMap.mp hms
      exact (hmembers n hn).methods ms hms m hm

/-- What occurs in a type that is as it should be is as it should be. -/
theorem Denoted.part {type : Ty} {c : Composite Ty} (h : scope.Denoted type) (hc : c ∈ type.parts) :
    scope.Denoted (.composite c) :=
  have hsub := Ty.parts_subset hc
  ⟨fun x hx => h.names x (Ty.names_of_parts hc hx), fun d hd => h.labels d (hsub hd),
    fun ms hms => h.methods ms (hsub hms)⟩

/-- The definition that a name stands for: its own, or, where that is a name alone, the one that
this name stands for. -/
inductive StandsFor (scope : Scope) : String → String → TypeExpr → Prop
  | self {x : String} {e : TypeExpr} :
      scope.body? x = some e → (∀ y p, e ≠ .name y p) → StandsFor scope x x e
  | through {x y z : String} {p : Position} {e : TypeExpr} :
      scope.body? x = some (.name y p) → StandsFor scope y z e → StandsFor scope x z e

theorem StandsFor.body {x z : String} {e : TypeExpr} (h : scope.StandsFor x z e) :
    scope.body? z = some e ∧ ∀ y p, e ≠ .name y p := by
  induction h with
  | self hbody hnot => exact ⟨hbody, hnot⟩
  | through _ _ ih => exact ih

theorem standsFor_of_lookThrough {n : Nat} {x z : String} {e : TypeExpr}
    (h : scope.lookThrough x n = .ok (z, e)) :
    scope.StandsFor x z e := by
  induction n generalizing x with
  | zero => cases h
  | succ n ih =>
    rw [lookThrough] at h
    split at h
    · cases h
    · rename_i hbody
      exact .through hbody (ih h)
    · rename_i body hnot hbody
      cases h
      exact .self hbody hnot

theorem primitiveOf_eq_ok {keyword : String} {type : Ty} (h : primitiveOf keyword = .ok type) :
    ∃ p, type = .prim p := by
  unfold primitiveOf at h
  split at h
  · rename_i p _
    cases h
    exact ⟨p, rfl⟩
  · cases h

/-- A name denotes a primitive type or the definition that it stands for. -/
theorem typeOfName_eq_ok {name : String} {type : Ty} (h : scope.typeOfName name = .ok type) :
    (∃ p, type = .prim p) ∨
      ∃ x e, scope.canonical name = .ok (x, e) ∧ scope.Defines x e ∧ type = .named x := by
  obtain ⟨⟨x, e⟩, hcanonical, h⟩ := except_bind_eq_ok.mp h
  obtain ⟨hbody, hnot⟩ := (standsFor_of_lookThrough hcanonical).body
  have hdefines : ∀ e', e = e' → (e' = .blob ∨ ∃ f, e' = .form f) →
      (.ok (.named x) : Except CompileFault Ty) = .ok type →
      ∃ x e, scope.canonical name = .ok (x, e) ∧ scope.Defines x e ∧ type = .named x := by
    rintro _ rfl he ⟨⟩
    exact ⟨x, e, hcanonical, ⟨hbody, he⟩, rfl⟩
  cases e with
  | name y p => exact absurd rfl (hnot y p)
  | primitive keyword => exact .inl (primitiveOf_eq_ok h)
  | blob => exact .inr (hdefines _ rfl (.inl rfl) h)
  | form f => exact .inr (hdefines _ rfl (.inr ⟨f, rfl⟩) h)

theorem typeOfName_denoted {name : String} {type : Ty} (h : scope.typeOfName name = .ok type) :
    scope.Denoted type := by
  rcases typeOfName_eq_ok h with ⟨p, rfl⟩ | ⟨x, e, _, hdefines, rfl⟩
  · exact .prim p
  · exact ⟨fun y hy => ⟨e, List.mem_singleton.mp hy ▸ hdefines⟩, nofun, nofun⟩

theorem typeOfName_function {name : String} {type : Ty} (h : scope.typeOfName name = .ok type)
    (hfunction : scope.isFunction name = true) : scope.IsFunction type := by
  unfold isFunction at hfunction
  split at hfunction
  · rename_i x args results modes hcanonical
    rcases typeOfName_eq_ok h with ⟨p, rfl⟩ | ⟨x', e, hcanonical', hdefines, rfl⟩
    · obtain ⟨r, hr, h⟩ := except_bind_eq_ok.mp h
      rw [hcanonical] at hr
      cases hr
      cases h
    · rw [hcanonical] at hcanonical'
      cases hcanonical'
      exact .named hdefines
  · cases hfunction

theorem typeOfName_service {name : String} {type : Ty} (h : scope.typeOfName name = .ok type)
    (hservice : scope.isService name = true) :
    ∃ x methods, scope.Defines x (.form (.service methods)) ∧ type = .named x := by
  unfold isService at hservice
  split at hservice
  · rename_i x methods hcanonical
    obtain ⟨hbody, _⟩ := (standsFor_of_lookThrough hcanonical).body
    obtain ⟨r, hr, h⟩ := except_bind_eq_ok.mp h
    rw [hcanonical] at hr
    cases hr
    cases h
    exact ⟨x, methods, ⟨hbody, .inr ⟨_, rfl⟩⟩, rfl⟩
  · cases hservice

theorem checkExpr_form {f : Form TypeExpr} (h : scope.checkExpr (.form f) = .ok ()) :
    scope.checkForm f = .ok () ∧ ∀ e ∈ f.members, scope.checkExpr e = .ok () := by
  rw [checkExpr, TypeExpr.fold_form, ← checkExpr, Form.map_fst] at h
  obtain ⟨_, hform, h⟩ := except_bind_eq_ok.mp h
  refine ⟨hform, fun e he => ?_⟩
  rw [Form.members_map] at h
  exact forM_eq_ok.mp h _ (List.mem_map_of_mem he)

theorem typedFields_eq (scope : Scope) (isVariant : Bool) (fields : List (FieldExpr TypeExpr)) :
    scope.typedFields isVariant (fields.map fun x =>
      ⟨x.label, x.type.map fun e => (e, scope.typeOf e), x.position⟩) =
    (do ((← Layout.slots isVariant fields).map Slot.field).mapM fun x => do
      return ⟨x.id, x.name, ← scope.typeOf x.type⟩) := by
  unfold typedFields
  rw [Layout.slots, Layout.slotsFrom_map, Layout.slots]
  cases Layout.slotsFrom isVariant 0 fields with
  | error e => rfl
  | ok slots =>
    refine (List.mapM_map ..).trans (Eq.trans ?_ (List.mapM_map ..).symm)
    congr 1
    funext ⟨id, name, content, position⟩
    cases content <;> rfl

/-- A form's type is its layout with types in the place of expressions. -/
theorem typedForm_eq_ok {f : Form TypeExpr} {c : Composite Ty} :
    scope.typedForm (f.map fun e => (e, scope.typeOf e)) = .ok c ↔
      ∃ d, f.layout = .ok d ∧ d.mapM scope.typeOf = .ok c := by
  have hplain : ∀ {d : Composite TypeExpr}, f.layout = .ok d →
      scope.typedForm (f.map fun e => (e, scope.typeOf e)) = d.mapM scope.typeOf →
      (scope.typedForm (f.map fun e => (e, scope.typeOf e)) = .ok c ↔
        ∃ d, f.layout = .ok d ∧ d.mapM scope.typeOf = .ok c) := by
    intro d hd heq
    rw [heq, hd]
    constructor
    · intro h
      exact ⟨d, rfl, h⟩
    · rintro ⟨_, ⟨⟩, h⟩
      exact h
  cases f with
  | opt e | vec e => exact hplain rfl rfl
  | record fields | variant fields =>
    rw [Form.map, typedForm, typedFields_eq, Form.layout]
    cases Layout.slots _ fields with
    | error e =>
      constructor
      · rintro ⟨⟩
      · rintro ⟨_, ⟨⟩, _⟩
    | ok slots =>
      constructor
      · intro h
        exact ⟨_, rfl, h⟩
      · rintro ⟨_, ⟨⟩, h⟩
        exact h
  | func args results words =>
    simp only [Form.map, typedForm, Form.layout, List.mapM_map]
    constructor
    · intro h
      obtain ⟨types, htypes, h⟩ := except_bind_eq_ok.mp h
      obtain ⟨types', htypes', h⟩ := except_bind_eq_ok.mp h
      obtain ⟨modes, hmodes, h⟩ := except_bind_eq_ok.mp h
      cases h
      refine ⟨_, except_bind_eq_ok.mpr ⟨modes, hmodes, rfl⟩, ?_⟩
      rw [Composite.mapM, List.mapM_map, List.mapM_map]
      exact except_bind_eq_ok.mpr ⟨types, htypes, except_bind_eq_ok.mpr ⟨types', htypes', rfl⟩⟩
    · rintro ⟨d, hd, h⟩
      obtain ⟨modes, hmodes, hd⟩ := except_bind_eq_ok.mp hd
      cases hd
      rw [Composite.mapM, List.mapM_map, List.mapM_map] at h
      obtain ⟨types, htypes, h⟩ := except_bind_eq_ok.mp h
      obtain ⟨types', htypes', h⟩ := except_bind_eq_ok.mp h
      cases h
      exact except_bind_eq_ok.mpr ⟨types, htypes, except_bind_eq_ok.mpr ⟨types', htypes',
        except_bind_eq_ok.mpr ⟨modes, hmodes, rfl⟩⟩⟩
  | service methods =>
    refine hplain rfl ?_
    rw [Form.map, typedForm, Composite.mapM, List.mapM_map, List.mapM_map]
    rfl

theorem typeOf_form {f : Form TypeExpr} {type : Ty} : scope.typeOf (.form f) = .ok type ↔
    ∃ d c, f.layout = .ok d ∧ d.mapM scope.typeOf = .ok c ∧ type = .composite c.canonical := by
  rw [typeOf, TypeExpr.fold_form, ← typeOf]
  constructor
  · intro h
    obtain ⟨c, hc, h⟩ := except_bind_eq_ok.mp h
    cases h
    obtain ⟨d, hd, hdc⟩ := typedForm_eq_ok.mp hc
    exact ⟨d, c, hd, hdc, rfl⟩
  · rintro ⟨d, c, hd, hdc, rfl⟩
    exact except_bind_eq_ok.mpr ⟨c, typedForm_eq_ok.mpr ⟨d, hd, hdc⟩, rfl⟩

/-- What a checked form lays out has labels that differ, and was checked. -/
theorem layout_checked {f : Form TypeExpr} (h : scope.checkExpr (.form f) = .ok ())
    {d : Composite TypeExpr} (hd : f.layout = .ok d) :
    d.shape.Tidy ∧ ∀ e ∈ d.members, scope.checkExpr e = .ok () := by
  obtain ⟨hform, hmembers⟩ := checkExpr_form h
  have hslots : ∀ {isVariant : Bool} {fields : List (FieldExpr TypeExpr)} {slots},
      (do scope.checkSlots [] (← Layout.slots isVariant fields)) = .ok () →
      (∀ e ∈ fields.filterMap (·.type), scope.checkExpr e = .ok ()) →
      Layout.slots isVariant fields = .ok slots →
      ((slots.map Slot.field).map (·.id)).Nodup ∧
        ∀ e ∈ (slots.map Slot.field).map (·.type), scope.checkExpr e = .ok () := by
    intro isVariant fields slots hcheck hmembers hslots
    rw [hslots] at hcheck
    obtain ⟨hnodup, hnamed⟩ := slots_checked hcheck
    rw [List.map_map, List.map_map]
    refine ⟨hnodup, fun e he => ?_⟩
    obtain ⟨s, hs, rfl⟩ := List.mem_map.mp he
    change scope.checkExpr s.expr = _
    unfold Slot.expr
    split
    · rename_i e heq
      exact hmembers e (Layout.content_of_slotsFrom hslots hs heq)
    · rename_i x heq
      exact hnamed s hs x heq
    · rfl
  cases f with
  | opt | vec =>
    cases hd
    exact ⟨trivial, hmembers⟩
  | record fields | variant fields =>
    obtain ⟨slots, heq, hd⟩ := except_bind_eq_ok.mp hd
    cases hd
    exact hslots hform hmembers heq
  | func args results words =>
    obtain ⟨modes, _, hd⟩ := except_bind_eq_ok.mp hd
    cases hd
    refine ⟨trivial, fun e he => hmembers e ?_⟩
    rwa [Composite.members, ← List.map_append] at he
  | service methods =>
    cases hd
    refine ⟨?_, fun e he => hmembers e ?_⟩
    · rw [Composite.shape, Shape.Tidy, List.map_map]
      exact (methods_checked hform).1
    · rwa [Composite.members, List.map_map] at he

/-- A checked form whose mode words are known lays out a composite. -/
theorem layout_returns {f : Form TypeExpr} (h : scope.checkExpr (.form f) = .ok ())
    (hallowed : f.Allowed) : ∃ d, f.layout = .ok d := by
  obtain ⟨hform, _⟩ := checkExpr_form h
  cases f with
  | opt e | vec e => exact ⟨_, rfl⟩
  | record fields | variant fields =>
    obtain ⟨slots, hslots, _⟩ := except_bind_eq_ok.mp hform
    exact ⟨_, except_bind_eq_ok.mpr ⟨slots, hslots, rfl⟩⟩
  | func args results words =>
    have hmode : ∀ word ∈ words, ∃ mode, modeOf word = .ok mode := by
      intro word hword
      have hknown := hallowed word hword
      simp only [Keyword.modes, Mode.all, List.map_cons, List.map_nil, List.mem_cons,
        List.not_mem_nil, or_false] at hknown
      rcases hknown with rfl | rfl | rfl
      · exact ⟨.query, by decide⟩
      · exact ⟨.oneway, by decide⟩
      · exact ⟨.compositeQuery, by decide⟩
    obtain ⟨modes, hmodes⟩ := exists_forall₂ hmode
    exact ⟨_, except_bind_eq_ok.mpr ⟨modes, except_mapM_eq_ok.mpr hmodes, rfl⟩⟩
  | service methods => exact ⟨_, rfl⟩

theorem Defines.composite {x : String} {e : TypeExpr} (hx : scope.Defines x e) {type : Ty}
    (h : scope.typeOf e = .ok type) : ∃ c, type = .composite c := by
  rcases hx.2 with rfl | ⟨f, rfl⟩
  · cases h
    exact ⟨_, rfl⟩
  · obtain ⟨_, c, _, _, rfl⟩ := typeOf_form.1 h
    exact ⟨_, rfl⟩

/-- A type that is a name is that of a definition. -/
theorem defines_of_named {e : TypeExpr} {x : String} (h : scope.typeOf e = .ok (.named x)) :
    ∃ e', scope.Defines x e' := by
  cases e with
  | name y p =>
    rcases typeOfName_eq_ok h with ⟨p, heq⟩ | ⟨z, e', _, hdefines, heq⟩
    · cases heq
    · cases heq
      exact ⟨e', hdefines⟩
  | primitive keyword =>
    obtain ⟨p, heq⟩ := primitiveOf_eq_ok h
    cases heq
  | blob => cases h
  | form f =>
    obtain ⟨_, c, _, _, heq⟩ := typeOf_form.1 h
    cases heq

theorem typeOf_func {args results : List (ArgExpr TypeExpr)} {modes : List String} {type : Ty}
    (h : scope.typeOf (.form (.func args results modes)) = .ok type) :
    ∃ args results modes, type = .composite (.func args results modes) := by
  obtain ⟨d, c, hd, hc, rfl⟩ := typeOf_form.1 h
  obtain ⟨modes, _, hd⟩ := except_bind_eq_ok.mp hd
  cases hd
  cases Composite.rel_of_mapM hc
  exact ⟨_, _, _, rfl⟩

/-- The type of a service has its methods, in the order of their names. -/
theorem typeOf_service {methods : List (MethodExpr TypeExpr)} {type : Ty}
    (h : scope.typeOf (.form (.service methods)) = .ok type) :
    ∃ ms, type = .composite (Composite.service ms).canonical ∧
      List.Forall₂ (fun (m : MethodExpr TypeExpr) (x : Method Ty) =>
        m.name = x.name ∧ scope.typeOf m.type = .ok x.type) methods ms := by
  obtain ⟨d, c, hd, hc, rfl⟩ := typeOf_form.1 h
  cases hd
  cases Composite.rel_of_mapM hc with
  | service hms => exact ⟨_, rfl, List.forall₂_map_left_iff.mp hms⟩

theorem typeOf_function {e : TypeExpr} (he : MethodType e)
    (hname : ∀ target p, e = .name target p → scope.isFunction target = true) {type : Ty}
    (h : scope.typeOf e = .ok type) : scope.IsFunction type := by
  cases he with
  | name target p => exact typeOfName_function h (hname target p rfl)
  | signature args results modes =>
    obtain ⟨_, _, _, rfl⟩ := typeOf_func h
    exact .func ..

/-- A form that denotes a service is one, and its methods are functions. -/
theorem typeOf_methods {f : Form TypeExpr} {ms : List (Method Ty)}
    (h : scope.typeOf (.form f) = .ok (.composite (.service ms)))
    (hcheck : scope.checkForm f = .ok ()) (hallowed : f.Allowed) :
    ∀ x ∈ ms, scope.IsFunction x.type := by
  cases f with
  | service methods =>
    obtain ⟨ms', heq, hms⟩ := typeOf_service h
    cases heq
    intro x hx
    obtain ⟨m, hm, _, htype⟩ := exists_of_mem_right hms ((sortBy_perm _ ms').mem_iff.mp hx)
    exact typeOf_function (hallowed m hm) ((methods_checked hcheck).2 m hm) htype
  | opt e | vec e =>
    obtain ⟨_, _, hd, hc, heq⟩ := typeOf_form.1 h
    cases hd
    cases Composite.rel_of_mapM hc
    cases heq
  | record | variant | func =>
    obtain ⟨_, _, hd, hc, heq⟩ := typeOf_form.1 h
    obtain ⟨_, _, hd⟩ := except_bind_eq_ok.mp hd
    cases hd
    cases Composite.rel_of_mapM hc
    cases heq

/-- What an accepted expression denotes is as it should be. -/
theorem typeOf_denoted {e : TypeExpr} (he : Grammatical e) (hcheck : scope.checkExpr e = .ok ())
    {type : Ty} (h : scope.typeOf e = .ok type) : scope.Denoted type := by
  induction e using TypeExpr.induct generalizing type with
  | name name p => exact typeOfName_denoted h
  | primitive _ =>
    obtain ⟨p, rfl⟩ := primitiveOf_eq_ok h
    exact .prim p
  | blob =>
    cases h
    exact .composite (fun m hm => List.mem_singleton.mp hm ▸ .prim .nat8) trivial nofun
  | form f ih =>
    obtain ⟨d, c, hd, hdc, rfl⟩ := typeOf_form.1 h
    obtain ⟨htidy, hchecked⟩ := layout_checked hcheck hd
    have hrel := Composite.rel_of_mapM hdc
    refine .composite (fun m hm => ?_) (Composite.ascends_canonical (hrel.shape_eq ▸ htidy)) ?_
    · obtain ⟨e, hmem, htype⟩ :=
        exists_of_mem_right hrel.members (Composite.mem_members_canonical.mp hm)
      exact ih d hd e hmem (he.holds (Form.holds_of_layout hd hmem)) (hchecked e hmem) htype
    · cases he with
      | form _ hallowed =>
        intro ms heq
        exact typeOf_methods (heq ▸ h) (checkExpr_form hcheck).1 hallowed

end Scope
end Didl.Idl
