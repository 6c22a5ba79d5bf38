import Didl.Proofs.Growing
import Didl.Proofs.Meaning
import Didl.Proofs.Presenting

namespace Didl.Idl

theorem Label.Means.slot {α : Type} {l : Label} {id : UInt32} {name : Option String}
    (h : l.Means id name) (isVariant : Bool) (index : Nat) (e : α) (p : Position) :
    Layout.slot isVariant index ⟨some l, some e, p⟩ = .ok ⟨id, name, .expr e, p⟩ ∧
      Layout.slot (α := α) true index ⟨some l, none, p⟩ = .ok ⟨id, name, .null, p⟩ := by
  cases h with
  | name | text => exact ⟨rfl, rfl⟩
  | number hid => simp [Layout.slot, Layout.numbered, hid]

namespace Scope
variable {scope : Scope}

theorem denotes_opt {e : TypeExpr} {type : Ty} (h : scope.Denotes e type) :
    scope.Denotes (.form (.opt e)) (.composite (.opt type)) :=
  ⟨checkExpr_of_form rfl (List.forall_mem_singleton.mpr h.1),
    typeOf_form.mpr ⟨_, _, rfl, except_bind_ok h.2 rfl, rfl⟩⟩

theorem denotes_vec {e : TypeExpr} {type : Ty} (h : scope.Denotes e type) :
    scope.Denotes (.form (.vec e)) (.composite (.vec type)) :=
  ⟨checkExpr_of_form rfl (List.forall_mem_singleton.mpr h.1),
    typeOf_form.mpr ⟨_, _, rfl, except_bind_ok h.2 rfl, rfl⟩⟩

inductive Restates (scope : Scope) (isVariant : Bool) (f : Field Ty) : FieldExpr TypeExpr → Prop
  | typed {l : Label} {e : TypeExpr} {p : Position} : l.Means f.id f.name →
      scope.Denotes e f.type → Restates scope isVariant f ⟨some l, some e, p⟩
  | bare {l : Label} {p : Position} : isVariant = true → l.Means f.id f.name →
      f.type = .prim .null → Restates scope isVariant f ⟨some l, none, p⟩

theorem Restates.slot {isVariant : Bool} {f : Field Ty} {x : FieldExpr TypeExpr}
    (h : scope.Restates isVariant f x) (index : Nat) :
    ∃ s, Layout.slot isVariant index x = .ok s ∧ s.id = f.id ∧ s.name = f.name ∧
      scope.Denotes s.expr f.type ∧ ∀ y, s.content ≠ .named y := by
  cases h with
  | typed hl he => exact ⟨_, (hl.slot isVariant index _ _).1, rfl, rfl, he, nofun⟩
  | bare hvariant hl hnull =>
    rw [hvariant, hnull]
    exact ⟨_, (hl.slot true index TypeExpr.blob _).2, rfl, rfl, ⟨rfl, rfl⟩, nofun⟩

theorem slots_of_restates {isVariant : Bool} {fs : List (Field Ty)}
    {xs : List (FieldExpr TypeExpr)} (h : List.Forall₂ (scope.Restates isVariant) fs xs)
    (index : Nat) : ∃ slots, Layout.slotsFrom isVariant index xs = .ok slots ∧
      List.Forall₂ (fun f s => s.id = f.id ∧ s.name = f.name ∧ scope.Denotes s.expr f.type ∧
        ∀ y, s.content ≠ .named y) fs slots := by
  induction h generalizing index with
  | nil => exact ⟨[], rfl, .nil⟩
  | cons hfirst _ ih =>
    obtain ⟨s, hs, hrest⟩ := hfirst.slot index
    obtain ⟨slots, hslots, hall⟩ := ih (index + 1)
    exact ⟨s :: slots, except_bind_ok hs (except_bind_ok hslots rfl), .cons hrest hall⟩

/-- Fields that restate those of a type, in order, are laid out as them. -/
theorem denotes_fields {isVariant : Bool} {fs : List (Field Ty)} {xs : List (FieldExpr TypeExpr)}
    (h : List.Forall₂ (scope.Restates isVariant) fs xs)
    (hascends : (fs.map (·.id)).Pairwise (· < ·)) :
    ∃ slots, Layout.slots isVariant xs = .ok slots ∧ scope.checkSlots [] slots = .ok () ∧
      (∀ e ∈ xs.filterMap (·.type), scope.checkExpr e = .ok ()) ∧
      (slots.map Slot.field).mapM (fun x => do
        return (⟨x.id, x.name, ← scope.typeOf x.type⟩ : Field Ty)) = .ok fs := by
  obtain ⟨slots, hslots, hall⟩ := slots_of_restates h 0
  have hids : slots.map Slot.id = fs.map (·.id) := by
    rw [← List.forall₂_eq_eq_eq, List.forall₂_map_left_iff, List.forall₂_map_right_iff]
    exact hall.flip.imp fun _ _ hs => hs.1
  refine ⟨slots, hslots, checkSlots_eq_ok.mpr ⟨?_, fun s hs y heq => ?_⟩, fun e he => ?_, ?_⟩
  · rw [hids]
    exact hascends.imp fun hlt heq => by simp [heq] at hlt
  · obtain ⟨f, _, _, _, _, hnot⟩ := exists_of_mem_right hall hs
    exact absurd heq (hnot y)
  · obtain ⟨x, hx, hxe⟩ := List.mem_filterMap.mp he
    obtain ⟨f, _, hf⟩ := exists_of_mem_right h hx
    cases hf with
    | typed _ hdenotes =>
      cases hxe
      exact hdenotes.1
    | bare => cases hxe
  · refine except_mapM_eq_ok.mpr (List.forall₂_map_left_iff.mpr (hall.flip.imp fun s f hs => ?_))
    obtain ⟨hid, hname, hdenotes, _⟩ := hs
    refine except_bind_ok hdenotes.2 ?_
    rw [Slot.field, hid, hname]
    rfl

theorem denotes_record {fs : List (Field Ty)} {xs : List (FieldExpr TypeExpr)}
    (h : List.Forall₂ (scope.Restates false) fs xs)
    (hascends : (Composite.record fs).shape.Ascends) :
    scope.Denotes (.form (.record xs)) (.composite (.record fs)) := by
  obtain ⟨slots, hslots, hcheck, hmembers, htypes⟩ := denotes_fields h hascends
  refine ⟨checkExpr_of_form (except_bind_ok hslots hcheck) hmembers, typeOf_form.mpr ?_⟩
  refine ⟨_, _, except_bind_ok hslots rfl, except_bind_ok htypes rfl, ?_⟩
  rw [Composite.canonical_of_ascends hascends]

theorem denotes_variant {fs : List (Field Ty)} {xs : List (FieldExpr TypeExpr)}
    (h : List.Forall₂ (scope.Restates true) fs xs)
    (hascends : (Composite.variant fs).shape.Ascends) :
    scope.Denotes (.form (.variant xs)) (.composite (.variant fs)) := by
  obtain ⟨slots, hslots, hcheck, hmembers, htypes⟩ := denotes_fields h hascends
  refine ⟨checkExpr_of_form (except_bind_ok hslots hcheck) hmembers, typeOf_form.mpr ?_⟩
  refine ⟨_, _, except_bind_ok hslots rfl, except_bind_ok htypes rfl, ?_⟩
  rw [Composite.canonical_of_ascends hascends]

/-- What is checked of a composite that an expression denotes, its members left out of account. -/
def Legal (scope : Scope) : Composite Ty → Prop
  | .record fs | .variant fs => ∀ f ∈ fs, ∀ s, f.name = some s → f.id = labelId s
  | .func _ results modes =>
    checkModes (modes.map Mode.keyword) (results.map (ArgExpr.mk none)) = .ok ()
  | .service ms => ∀ m ∈ ms, ∀ x, m.type = .named x → scope.isFunction x = true
  | _ => True

theorem denotes_func {args results : List Ty} {modes : List Mode}
    (hlegal : scope.Legal (.func args results modes)) {as rs : List (ArgExpr TypeExpr)}
    (has : List.Forall₂ (fun t x => scope.Denotes x.type t) args as)
    (hrs : List.Forall₂ (fun t x => scope.Denotes x.type t) results rs) :
    scope.Denotes (.form (.func as rs (modes.map Mode.keyword)))
      (.composite (.func args results modes)) := by
  have hmodes : (modes.map Mode.keyword).mapM modeOf = .ok modes := by
    refine except_mapM_eq_ok.mpr (List.forall₂_map_left_iff.mpr ?_)
    refine List.forall₂_same.mpr fun m _ => ?_
    cases m <;> rfl
  have hempty : rs.isEmpty = (results.map (ArgExpr.mk none)).isEmpty := by
    cases hrs <;> rfl
  have htypes {ts : List Ty} {xs : List (ArgExpr TypeExpr)}
      (h : List.Forall₂ (fun t x => scope.Denotes x.type t) ts xs) :
      (xs.map (·.type)).mapM scope.typeOf = .ok ts :=
    except_mapM_eq_ok.mpr (List.forall₂_map_left_iff.mpr (h.flip.imp fun _ _ hx => hx.2))
  have hchecked {ts : List Ty} {xs : List (ArgExpr TypeExpr)}
      (h : List.Forall₂ (fun t x => scope.Denotes x.type t) ts xs) :
      ∀ x ∈ xs, scope.checkExpr x.type = .ok () := by
    intro x hx
    obtain ⟨t, _, hdenotes⟩ := exists_of_mem_right h hx
    exact hdenotes.1
  refine ⟨checkExpr_of_form ?_ ?_, typeOf_form.mpr ⟨_, _, except_bind_ok hmodes rfl,
    except_bind_ok (htypes has) (except_bind_ok (htypes hrs) rfl), rfl⟩⟩
  · rw [checkForm, checkModes, hempty]
    exact hlegal
  · exact List.forall_mem_map.mpr (List.forall_mem_append.mpr ⟨hchecked has, hchecked hrs⟩)

theorem denotes_service {ms : List (Method Ty)} {xs : List (MethodExpr TypeExpr)}
    (hascends : (Composite.service ms).shape.Ascends)
    (h : List.Forall₂ (fun (m : Method Ty) x => x.name = m.name ∧ scope.Denotes x.type m.type ∧
      ∀ target p, x.type = .name target p → scope.isFunction target = true) ms xs) :
    scope.Denotes (.form (.service xs)) (.composite (.service ms)) := by
  have hnames : xs.map MethodExpr.name = ms.map (·.name) := by
    rw [← List.forall₂_eq_eq_eq, List.forall₂_map_left_iff, List.forall₂_map_right_iff]
    exact h.flip.imp fun _ _ hx => hx.1
  refine ⟨checkExpr_of_form (checkMethods_eq_ok.mpr ⟨?_, fun x hx => ?_⟩) ?_,
    typeOf_form.mpr ⟨_, .service ms, rfl, except_bind_ok ?_ rfl, ?_⟩⟩
  · rw [hnames]
    exact hascends.imp fun hlt heq => by simp [heq] at hlt
  · obtain ⟨m, _, _, _, hfunction⟩ := exists_of_mem_right h hx
    exact hfunction
  · refine List.forall_mem_map.mpr fun x hx => ?_
    obtain ⟨m, _, _, hdenotes, _⟩ := exists_of_mem_right h hx
    exact hdenotes.1
  · refine except_mapM_eq_ok.mpr (List.forall₂_map_left_iff.mpr (h.flip.imp fun x m hx => ?_))
    obtain ⟨hname, hdenotes, _⟩ := hx
    refine except_bind_ok hdenotes.2 ?_
    rw [hname]
    rfl
  · rw [Composite.canonical_of_ascends hascends]

theorem isFunction_of_defines {x : String} {args results : List (ArgExpr TypeExpr)}
    {modes : List String} (h : scope.Defines x (.form (.func args results modes))) :
    scope.isFunction x = true := by
  rw [isFunction, canonical, lookThrough, h.1]

/-- A name that a type consists of is written as the name of its definition. -/
theorem denotes_name {x : String} {e : TypeExpr} (h : scope.Defines x e) (p : Position) :
    scope.Denotes (.name x p) (.named x) := by
  refine ⟨checkDefined_eq_ok.mpr (Option.isSome_iff_exists.mpr ⟨e, h.1⟩), ?_⟩
  have hcanonical : scope.canonical x = .ok (x, e) := by
    rw [canonical, lookThrough, h.1]
    rcases h.2 with rfl | ⟨f, rfl⟩ <;> rfl
  refine except_bind_ok hcanonical ?_
  rcases h.2 with rfl | ⟨f, rfl⟩ <;> rfl

/-- A field that is named as it is laid out has the number of its name. -/
theorem labelled_of_slots {isVariant : Bool} {xs : List (FieldExpr TypeExpr)}
    {slots : List (Slot TypeExpr)} {fs : List (Field Ty)}
    (hslots : Layout.slots isVariant xs = .ok slots)
    (hfs : (slots.map Slot.field).mapM (fun x => do
      return (⟨x.id, x.name, ← scope.typeOf x.type⟩ : Field Ty)) = .ok fs) :
    ∀ f ∈ sortBy (·.id) fs, ∀ s, f.name = some s → f.id = labelId s := by
  intro f hf s hname
  obtain ⟨row, hrow, htyped⟩ := exists_of_mem_right (except_mapM_eq_ok.mp hfs)
    ((sortBy_perm _ _).mem_iff.mp hf)
  obtain ⟨type, _, htyped⟩ := except_bind_eq_ok.mp htyped
  cases htyped
  obtain ⟨⟨x, index⟩, _, hdeclares⟩ := exists_of_mem_right (declareAll_of_slots hslots) hrow
  dsimp only at hname hdeclares
  cases hdeclares with
  | labelled hl | labelAlone _ hl =>
    cases hl with
    | name | text =>
      cases hname
      rfl
    | number => cases hname
  | unlabelled | typeAlone => cases hname

/-- What an accepted form denotes is legal and in order. -/
theorem legal_of_layout {f : Form TypeExpr} (hcheck : scope.checkExpr (.form f) = .ok ())
    {d : Composite TypeExpr} (hd : f.layout = .ok d) {c : Composite Ty}
    (hc : d.mapM scope.typeOf = .ok c) :
    c.canonical.shape.Ascends ∧ scope.Legal c.canonical := by
  have hrel := Composite.rel_of_mapM hc
  refine ⟨Composite.ascends_canonical (hrel.shape_eq ▸ (layout_checked hcheck hd).1), ?_⟩
  cases f with
  | opt | vec =>
    cases hd
    cases hrel
    trivial
  | record fields | variant fields =>
    obtain ⟨slots, hslots, hd⟩ := except_bind_eq_ok.mp hd
    cases hd
    obtain ⟨fs, hfs, hc⟩ := except_bind_eq_ok.mp hc
    cases hc
    exact labelled_of_slots hslots hfs
  | func args results words =>
    obtain ⟨modes, hmodes, hd⟩ := except_bind_eq_ok.mp hd
    cases hd
    cases hrel with
    | @func _ _ _ types _ _ hresults =>
      have hform := (checkExpr_form hcheck).1
      have hempty : results.isEmpty = (types.map (ArgExpr.mk none)).isEmpty := by
        cases results <;> cases hresults <;> rfl
      rw [checkForm, checkModes, hempty, ← words_of_modes hmodes] at hform
      exact hform
  | service methods =>
    cases hd
    cases hrel with
    | service hms =>
      intro m hm x hx
      obtain ⟨method, hmethod, _, htype⟩ := exists_of_mem_right (List.forall₂_map_left_iff.mp hms)
        ((sortBy_perm _ _).mem_iff.mp hm)
      rw [hx] at htype
      by_cases hname : ∃ y p, method.type = .name y p
      · obtain ⟨y, p, heq⟩ := hname
        rw [heq] at htype
        have hfunction := (checkMethods_eq_ok.mp (checkExpr_form hcheck).1).2 method hmethod y p heq
        cases typeOfName_function htype hfunction with
        | named hdefines => exact isFunction_of_defines hdefines
      · exact absurd htype (typeOf_ne_named fun y p heq => hname ⟨y, p, heq⟩)

end Scope
end Didl.Idl
