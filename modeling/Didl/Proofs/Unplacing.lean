import Didl.Idl.Import
import Didl.Proofs.Growing

namespace Didl.Idl

def Position.nowhere : Position := ⟨0, 0⟩

def Token.unplaced (t : Token) : Token := ⟨t.text, .nowhere⟩

section Expressions
variable {α β γ : Type}

def FieldExpr.unplaced (g : α → β) (x : FieldExpr α) : FieldExpr β :=
  ⟨x.label, x.type.map g, .nowhere⟩

def ArgExpr.unplaced (g : α → β) (x : ArgExpr α) : ArgExpr β := ⟨x.name, g x.type⟩

def MethodExpr.unplaced (g : α → β) (x : MethodExpr α) : MethodExpr β :=
  ⟨x.name, .nowhere, g x.type⟩

/-- The form with an image of each member in its place, and without places of its own. -/
def Form.unplaced (g : α → β) : Form α → Form β
  | .opt e => .opt (g e)
  | .vec e => .vec (g e)
  | .record fs => .record (fs.map (FieldExpr.unplaced g))
  | .variant fs => .variant (fs.map (FieldExpr.unplaced g))
  | .func args results modes =>
    .func (args.map (ArgExpr.unplaced g)) (results.map (ArgExpr.unplaced g)) modes
  | .service ms => .service (ms.map (MethodExpr.unplaced g))

def TypeExpr.unplaced : TypeExpr → TypeExpr :=
  TypeExpr.fold (fun x _ => .name x .nowhere) .primitive .blob fun f => .form (f.unplaced Prod.snd)

namespace Form
variable {f : Form α}

theorem unplaced_map (g : α → β) (h : β → γ) (f : Form α) :
    (f.map g).unplaced h = f.unplaced fun e => h (g e) := by
  cases f <;> simp [map, unplaced, FieldExpr.unplaced, ArgExpr.unplaced, MethodExpr.unplaced,
    Function.comp_def]

theorem map_unplaced (g : α → β) (h : β → γ) (f : Form α) :
    (f.unplaced g).map h = f.unplaced fun e => h (g e) := by
  cases f <;> simp [map, unplaced, FieldExpr.unplaced, ArgExpr.unplaced, MethodExpr.unplaced,
    Function.comp_def]

theorem members_unplaced (g : α → β) (f : Form α) : (f.unplaced g).members = f.members.map g := by
  cases f with
  | opt e | vec e => rfl
  | record fs | variant fs =>
    simp only [unplaced, members, List.filterMap_map, List.map_filterMap]
    rfl
  | func args results modes => simp [unplaced, members, ArgExpr.unplaced, Function.comp_def]
  | service ms => simp [unplaced, members, MethodExpr.unplaced, Function.comp_def]

theorem unplaced_congr {g h : α → β} (hgh : ∀ e ∈ f.members, g e = h e) :
    f.unplaced g = f.unplaced h := by
  cases f with
  | opt e | vec e => simp_all [unplaced, members]
  | record fs | variant fs =>
    have hfields : fs.map (FieldExpr.unplaced g) = fs.map (FieldExpr.unplaced h) := by
      refine List.map_congr_left fun x hx => congrArg (FieldExpr.mk x.label · _) ?_
      exact Option.map_congr fun e hx' => hgh e (List.mem_filterMap.mpr ⟨x, hx, hx'⟩)
    rw [unplaced, unplaced, hfields]
  | func args results modes =>
    have hargs : ∀ xs : List (ArgExpr α), (∀ x ∈ xs, x ∈ args ++ results) →
        xs.map (ArgExpr.unplaced g) = xs.map (ArgExpr.unplaced h) := fun xs hxs =>
      List.map_congr_left fun x hx =>
        congrArg (ArgExpr.mk x.name) (hgh x.type (List.mem_map_of_mem (hxs x hx)))
    rw [unplaced, unplaced, hargs args fun _ => List.mem_append_left _,
      hargs results fun _ => List.mem_append_right _]
  | service ms =>
    have hmethods : ms.map (MethodExpr.unplaced g) = ms.map (MethodExpr.unplaced h) :=
      List.map_congr_left fun x hx =>
        congrArg (MethodExpr.mk x.name _) (hgh x.type (List.mem_map_of_mem hx))
    rw [unplaced, unplaced, hmethods]

end Form

namespace TypeExpr

theorem unplaced_form (f : Form TypeExpr) : (form f).unplaced = .form (f.unplaced unplaced) := by
  rw [unplaced, fold_form, Form.unplaced_map]

/-- What is computed bottom up from an expression without places, where the places of names and forms
do not matter. -/
theorem fold_unplaced {name name' : String → Position → β} {primitive primitive' : String → β}
    {blob blob' : β} {form form' : Form (TypeExpr × β) → β} {φ : β → β}
    (hname : ∀ x p, name' x .nowhere = φ (name x p))
    (hprimitive : ∀ keyword, primitive' keyword = φ (primitive keyword)) (hblob : blob' = φ blob)
    (hform : ∀ f : Form (TypeExpr × β),
      form' (f.unplaced fun e => (e.1.unplaced, φ e.2)) = φ (form f)) (e : TypeExpr) :
    fold name' primitive' blob' form' e.unplaced = φ (fold name primitive blob form e) := by
  induction e using TypeExpr.induct_members with
  | name x p => exact hname x p
  | primitive keyword => exact hprimitive keyword
  | blob => exact hblob
  | form f ih =>
    rw [unplaced_form, fold_form, fold_form, Form.map_unplaced, ← hform, Form.unplaced_map]
    exact congrArg form' (Form.unplaced_congr fun e he => by rw [ih e he])

end TypeExpr
end Expressions

def CompileFault.unplaced : CompileFault → CompileFault
  | .reservedName name _ => .reservedName name .nowhere
  | .definedTwice name _ => .definedTwice name .nowhere
  | .undefinedAt name _ => .undefinedAt name .nowhere
  | .repeatedId id _ => .repeatedId id .nowhere
  | .badFieldId digits _ => .badFieldId digits .nowhere
  | .fieldWithoutType _ => .fieldWithoutType .nowhere
  | .tooManyFields _ => .tooManyFields .nowhere
  | .repeatedMethod name _ => .repeatedMethod name .nowhere
  | fault => fault

def Failure.unplaced : Failure → Failure
  | .parse cause _ => .parse cause .nowhere
  | .compile cause => .compile cause.unplaced
  | failure => failure

def Definition.unplaced (d : Definition) : Definition := ⟨d.name, .nowhere, d.type.unplaced⟩

def Actor.unplaced (a : Actor) : Actor :=
  ⟨a.name, .nowhere, a.init.map (List.map (ArgExpr.unplaced TypeExpr.unplaced)), a.body.unplaced⟩

def Import.unplaced (i : Import) : Import := ⟨i.path, .nowhere⟩

def Program.unplaced (p : Program) : Program :=
  ⟨p.imports.map Import.unplaced, p.definitions.map Definition.unplaced, p.actor.map Actor.unplaced⟩

def Interface.unplaced (i : Interface) : Interface := { i with program := i.program.unplaced }

/-- What was made, or why it failed, without places. -/
def unplacedResult {α β : Type} (g : α → β) (result : Except Failure α) : Except Failure β :=
  (result.map g).mapError Failure.unplaced

section Faults
variable {α β ε ε' : Type} {g : ε → ε'}

theorem mapError_bind (x : Except ε α) (f : α → Except ε β) :
    (x >>= f).mapError g = x.mapError g >>= fun a => (f a).mapError g := by
  cases x <;> rfl

/-- Steps that give images of what other steps give. -/
theorem bind_eq_mapError {x : Except ε α} {x' : Except ε' α} {f : α → Except ε β}
    {f' : α → Except ε' β} (hx : x' = x.mapError g) (hf : ∀ a, f' a = (f a).mapError g) :
    x' >>= f' = (x >>= f).mapError g := by
  rw [mapError_bind, hx]
  exact congrArg _ (funext hf)

theorem ite_eq_mapError {c : Prop} [Decidable c] {x y : Except ε α} {x' y' : Except ε' α}
    (hx : x' = x.mapError g) (hy : y' = y.mapError g) :
    (if c then x' else y') = (if c then x else y).mapError g := by
  rw [hx, hy, apply_ite (Except.mapError g)]

theorem mapError_mapM (f : α → Except ε β) (as : List α) :
    (as.mapM f).mapError g = as.mapM fun a => (f a).mapError g := by
  induction as with
  | nil => rfl
  | cons a as ih =>
    rw [List.mapM_cons, List.mapM_cons, mapError_bind]
    refine congrArg _ (funext fun b => ?_)
    rw [mapError_bind, ih]
    rfl

theorem mapError_forM (f : α → Except ε Unit) (as : List α) :
    (as.forM f).mapError g = as.forM fun a => (f a).mapError g := by
  induction as with
  | nil => rfl
  | cons a as ih => exact (mapError_bind (f a) _).trans (congrArg _ (funext fun _ => ih))

theorem foldlM_eq_mapError {f : β → α → Except ε β} {g : ε → ε}
    (hf : ∀ b a, f b a = (f b a).mapError g) (as : List α) (b : β) :
    as.foldlM f b = (as.foldlM f b).mapError g := by
  induction as generalizing b with
  | nil => rfl
  | cons a as ih =>
    rw [List.foldlM_cons]
    exact bind_eq_mapError (hf b a) ih

end Faults

def Slot.unplaced {α β : Type} (g : α → β) (s : Slot α) : Slot β :=
  ⟨s.id, s.name, s.content.map g, .nowhere⟩

namespace Layout
variable {α β : Type} (g : α → β)

theorem slot_unplaced (isVariant : Bool) (index : Nat) (x : FieldExpr α) :
    slot isVariant index (x.unplaced g) =
      Slot.unplaced g <$> (slot isVariant index x).mapError CompileFault.unplaced := by
  obtain ⟨label, type, position⟩ := x
  have hid : ∀ (r r' : Except CompileFault UInt32) (content : Content α),
      r' = r.mapError CompileFault.unplaced →
      (do return (⟨← r', none, content.map g, .nowhere⟩ : Slot β)) =
        Slot.unplaced g <$> Except.mapError CompileFault.unplaced
          (do return ⟨← r, none, content, position⟩) := by
    rintro r _ content rfl
    cases r <;> rfl
  have hnumbered (digits : String) : numbered digits .nowhere =
      (numbered digits position).mapError CompileFault.unplaced := by
    unfold numbered
    cases numeral? digits <;> rfl
  have hpositional : positional index .nowhere =
      (positional index position).mapError CompileFault.unplaced := by
    unfold positional
    split <;> rfl
  rcases type with _ | e <;> rcases label with _ | name | text | digits
  case none.some.name =>
    cases isVariant
    · exact hid _ _ (.named name) hpositional
    · rfl
  case none.some.number =>
    cases isVariant
    · rfl
    · exact hid _ _ .null (hnumbered digits)
  case some.none => exact hid _ _ (.expr e) hpositional
  case some.some.number => exact hid _ _ (.expr e) (hnumbered digits)
  case none.some.text => cases isVariant <;> rfl
  all_goals rfl

theorem slots_unplaced (isVariant : Bool) (fields : List (FieldExpr α)) :
    slots isVariant (fields.map (FieldExpr.unplaced g)) =
      List.map (Slot.unplaced g) <$> (slots isVariant fields).mapError CompileFault.unplaced := by
  have hfrom : ∀ index, slotsFrom isVariant index
      (fields.map (FieldExpr.unplaced g)) = List.map (Slot.unplaced g) <$>
        (slotsFrom isVariant index fields).mapError CompileFault.unplaced := by
    induction fields with
    | nil => exact fun _ => rfl
    | cons x xs ih =>
      intro index
      rw [List.map_cons, slotsFrom, slotsFrom, slot_unplaced, ih, mapError_bind]
      simp only [mapError_bind, map_bind, bind_map_left]
      rfl
  exact hfrom 0

end Layout

namespace Scope
variable (scope : Scope)

def unplaced : Scope := scope.map Definition.unplaced

theorem find?_unplaced (name : String) : scope.unplaced.find? (·.name == name) =
    (scope.find? (·.name == name)).map Definition.unplaced := by
  rw [unplaced, List.find?_map]
  rfl

theorem body?_unplaced (name : String) :
    scope.unplaced.body? name = (scope.body? name).map TypeExpr.unplaced := by
  rw [body?, find?_unplaced, Option.map_map, body?, Option.map_map]
  rfl

theorem isDefined_unplaced (name : String) : scope.unplaced.isDefined name = scope.isDefined name := by
  rw [isDefined, body?_unplaced, Option.isSome_map, isDefined]

theorem lookThrough_unplaced (name : String) (n : Nat) : scope.unplaced.lookThrough name n =
    Prod.map id TypeExpr.unplaced <$> (scope.lookThrough name n).mapError CompileFault.unplaced := by
  induction n generalizing name with
  | zero => rfl
  | succ n ih =>
    rw [lookThrough, lookThrough, body?_unplaced]
    cases scope.body? name with
    | none => rfl
    | some e =>
      cases e with
      | name target p => exact ih target
      | primitive | blob => rfl
      | form f =>
        rw [Option.map_some, TypeExpr.unplaced_form]
        simp [Except.mapError, TypeExpr.unplaced_form]

theorem canonical_unplaced (name : String) : scope.unplaced.canonical name =
    Prod.map id TypeExpr.unplaced <$> (scope.canonical name).mapError CompileFault.unplaced := by
  rw [canonical, unplaced, List.length_map]
  exact lookThrough_unplaced scope name _

/-- A name stands for the same kind of type without places. -/
theorem kinds_unplaced (name : String) : scope.unplaced.isFunction name = scope.isFunction name ∧
    scope.unplaced.isService name = scope.isService name := by
  simp only [isFunction, isService, canonical_unplaced]
  cases scope.canonical name with
  | error => exact ⟨rfl, rfl⟩
  | ok found =>
    obtain ⟨target, e⟩ := found
    cases e with
    | name | primitive | blob => exact ⟨rfl, rfl⟩
    | form f => cases f <;> exact ⟨rfl, rfl⟩

section Types

theorem primitiveOf_unplaced (keyword : String) :
    primitiveOf keyword = (primitiveOf keyword).mapError CompileFault.unplaced := by
  unfold primitiveOf
  cases Prim.ofKeyword? keyword <;> rfl

theorem modeOf_unplaced (word : String) :
    modeOf word = (modeOf word).mapError CompileFault.unplaced := by
  unfold modeOf
  cases Mode.ofKeyword? word <;> rfl

theorem typeOfName_unplaced (name : String) : scope.unplaced.typeOfName name =
    (scope.typeOfName name).mapError CompileFault.unplaced := by
  rw [typeOfName, canonical_unplaced, typeOfName, mapError_bind]
  cases scope.canonical name with
  | error => rfl
  | ok found =>
    obtain ⟨target, e⟩ := found
    cases e with
    | primitive keyword => exact primitiveOf_unplaced keyword
    | name | blob => rfl
    | form f => rfl

variable {α β : Type} (g : α → β)

def besideUnplaced {γ : Type} (e : α × Except CompileFault γ) : β × Except CompileFault γ :=
  (g e.1, e.2.mapError CompileFault.unplaced)

theorem typedFields_unplaced (isVariant : Bool)
    (fields : List (FieldExpr (α × Except CompileFault Ty))) :
    scope.unplaced.typedFields isVariant
        (fields.map (FieldExpr.unplaced (besideUnplaced g))) =
      (scope.typedFields isVariant fields).mapError CompileFault.unplaced := by
  rw [typedFields, Layout.slots_unplaced, bind_map_left, typedFields, mapError_bind]
  refine congrArg _ (funext fun slots => ?_)
  rw [List.mapM_map, mapError_mapM]
  refine congrArg (List.mapM · slots) (funext fun slot => ?_)
  obtain ⟨id, name, content, position⟩ := slot
  cases content with
  | expr e =>
    obtain ⟨a, type⟩ := e
    cases type <;> rfl
  | named x =>
    refine Eq.trans ?_ (mapError_bind (scope.typeOfName x) _).symm
    rw [← typeOfName_unplaced]
    rfl
  | null => rfl

theorem typedForm_unplaced (f : Form (α × Except CompileFault Ty)) :
    scope.unplaced.typedForm (f.unplaced (besideUnplaced g)) =
      (scope.typedForm f).mapError CompileFault.unplaced := by
  cases f with
  | opt e | vec e =>
    obtain ⟨a, type⟩ := e
    cases type <;> rfl
  | record fs | variant fs =>
    rw [Form.unplaced, typedForm, typedFields_unplaced, typedForm, mapError_bind]
    rfl
  | func args results modes =>
    simp only [Form.unplaced, typedForm, mapError_bind, mapError_mapM, ← modeOf_unplaced,
      List.mapM_map]
    rfl
  | service ms =>
    simp only [Form.unplaced, typedForm, mapError_bind, mapError_mapM, List.mapM_map]
    rfl

theorem typeOf_unplaced (e : TypeExpr) :
    scope.unplaced.typeOf e.unplaced = (scope.typeOf e).mapError CompileFault.unplaced := by
  refine TypeExpr.fold_unplaced (φ := Except.mapError CompileFault.unplaced) ?_ ?_ ?_ ?_ e
  · exact fun x _ => scope.typeOfName_unplaced x
  · exact primitiveOf_unplaced
  · rfl
  · intro f
    rw [mapError_bind, ← scope.typedForm_unplaced TypeExpr.unplaced]
    rfl

end Types

end Scope

theorem TypeExpr.heldNames_unplaced (e : TypeExpr) :
    e.unplaced.heldNames = e.heldNames.mapError CompileFault.unplaced := by
  refine TypeExpr.fold_unplaced (φ := Except.mapError CompileFault.unplaced) ?_ ?_ ?_ ?_ e
  · exact fun _ _ => rfl
  · exact fun _ => rfl
  · rfl
  · intro f
    cases f with
    | record fields =>
      rw [Form.unplaced]
      dsimp only
      rw [Layout.slots_unplaced, bind_map_left, mapError_bind]
      refine congrArg _ (funext fun slots => ?_)
      rw [List.mapM_map, mapError_bind, mapError_mapM]
      congr 1
      refine congrArg (List.mapM · slots) (funext fun slot => ?_)
      obtain ⟨id, name, content, position⟩ := slot
      cases content <;> rfl
    | opt | vec | variant | func | service => rfl

namespace Recursion

theorem without_unplaced (name : String) (scope : Scope) :
    without name scope.unplaced = (without name scope).unplaced := by
  rw [without, Scope.unplaced, List.filter_map]
  rfl

theorem search_unplaced (fresh : Scope) (opened : List String) (pending : List Visit) :
    search fresh.unplaced opened pending =
      (search fresh opened pending).mapError CompileFault.unplaced := by
  match pending with
  | [] =>
    rw [search, search]
    rfl
  | .leave x :: rest =>
    rw [search, search]
    exact search_unplaced fresh _ rest
  | .enter x :: rest =>
    by_cases hx : x ∈ opened
    · have hopen : opened.contains x = true := by simpa using hx
      rw [search, if_pos hopen, search, if_pos hopen]
      rfl
    have hbody := fresh.body?_unplaced x
    cases hfresh : fresh.body? x with
    | none =>
      rw [hfresh] at hbody
      rw [search_enter_missing hx hfresh, search_enter_missing hx hbody]
      exact search_unplaced fresh opened rest
    | some e =>
      have hlt := length_without_lt_of_body? hfresh
      rw [hfresh] at hbody
      rw [search_enter_defined hx hfresh, search_enter_defined hx hbody, e.heldNames_unplaced,
        without_unplaced]
      cases e.heldNames with
      | error fault => rfl
      | ok held => exact search_unplaced (without x fresh) _ _
termination_by (fresh.length, pending.length)

end Recursion

namespace Scope
variable (scope : Scope)

theorem checkRecursion_unplaced : scope.unplaced.checkRecursion =
    scope.checkRecursion.mapError CompileFault.unplaced := by
  rw [checkRecursion, checkRecursion, ← Recursion.search_unplaced, unplaced, List.map_map]
  rfl

theorem checkNames_unplaced (seen : List String) : checkNames seen scope.unplaced =
    (checkNames seen scope).mapError CompileFault.unplaced := by
  induction scope generalizing seen with
  | nil => rfl
  | cons d rest ih =>
    rw [unplaced, List.map_cons, checkNames, checkNames]
    exact ite_eq_mapError rfl (ite_eq_mapError rfl (ih (d.name :: seen)))

theorem checkDefined_unplaced (name : String) (p : Position) :
    scope.unplaced.checkDefined name .nowhere =
      (scope.checkDefined name p).mapError CompileFault.unplaced := by
  rw [checkDefined, isDefined_unplaced, checkDefined]
  split <;> rfl

variable {α β : Type} (g : α → β)

theorem checkSlots_unplaced (seen : List UInt32) (slots : List (Slot α)) :
    scope.unplaced.checkSlots seen (slots.map (Slot.unplaced g)) =
      (scope.checkSlots seen slots).mapError CompileFault.unplaced := by
  induction slots generalizing seen with
  | nil => rfl
  | cons slot rest ih =>
    obtain ⟨id, name, content, position⟩ := slot
    rw [List.map_cons, checkSlots, checkSlots]
    refine ite_eq_mapError rfl ?_
    cases content with
    | named x =>
      exact bind_eq_mapError (scope.checkDefined_unplaced x position) fun _ => ih (id :: seen)
    | expr | null => exact bind_eq_mapError (x := .ok ()) rfl fun _ => ih (id :: seen)

theorem checkModes_unplaced (modes : List String) (results : List (ArgExpr α)) :
    checkModes modes (results.map (ArgExpr.unplaced g)) =
      (checkModes modes results).mapError CompileFault.unplaced := by
  unfold checkModes
  rw [List.isEmpty_map]
  split
  · rfl
  · split_ifs <;> rfl

theorem checkMethods_unplaced (seen : List String) (methods : List (MethodExpr TypeExpr)) :
    scope.unplaced.checkMethods seen
        (methods.map (MethodExpr.unplaced TypeExpr.unplaced)) =
      (scope.checkMethods seen methods).mapError CompileFault.unplaced := by
  induction methods generalizing seen with
  | nil => rfl
  | cons method rest ih =>
    obtain ⟨name, position, type⟩ := method
    have hrest : ∀ r : Except CompileFault Unit, r = r.mapError CompileFault.unplaced →
        (r >>= fun _ => scope.unplaced.checkMethods (name :: seen)
          (rest.map (MethodExpr.unplaced TypeExpr.unplaced))) =
        (r >>= fun _ => scope.checkMethods (name :: seen) rest).mapError CompileFault.unplaced :=
      fun r hr => bind_eq_mapError hr fun _ => ih (name :: seen)
    rw [List.map_cons, checkMethods, checkMethods]
    refine ite_eq_mapError rfl ?_
    cases type with
    | name target =>
      refine Eq.trans ?_ (ite_eq_mapError (hrest (.ok ()) rfl) (hrest (.error _) rfl))
      rw [← (kinds_unplaced scope _).1]
      rfl
    | primitive | blob => exact hrest (.ok ()) rfl
    | form f =>
      rw [MethodExpr.unplaced, TypeExpr.unplaced_form]
      exact hrest (.ok ()) rfl

theorem checkForm_unplaced (f : Form TypeExpr) :
    scope.unplaced.checkForm (f.unplaced TypeExpr.unplaced) =
      (scope.checkForm f).mapError CompileFault.unplaced := by
  cases f with
  | opt | vec => rfl
  | record fields | variant fields =>
    rw [Form.unplaced, checkForm, Layout.slots_unplaced, bind_map_left, checkForm, mapError_bind]
    exact congrArg _ (funext fun slots => scope.checkSlots_unplaced _ [] slots)
  | func args results modes => exact checkModes_unplaced _ modes results
  | service methods => exact scope.checkMethods_unplaced [] methods

theorem checkExpr_unplaced (e : TypeExpr) :
    scope.unplaced.checkExpr e.unplaced = (scope.checkExpr e).mapError CompileFault.unplaced := by
  refine TypeExpr.fold_unplaced (φ := Except.mapError CompileFault.unplaced) ?_ ?_ ?_ ?_ e
  · exact fun x p => scope.checkDefined_unplaced x p
  · exact fun _ => rfl
  · rfl
  · intro f
    have hform := scope.checkForm_unplaced (f.map Prod.fst)
    rw [Form.unplaced_map] at hform
    rw [mapError_bind, ← hform, Form.map_unplaced, Form.members_unplaced]
    refine congrArg _ (funext fun _ => ?_)
    exact (List.forM_map ..).trans (mapError_forM _ _).symm

theorem checkExprs_unplaced (as : List α) (type : α → TypeExpr) :
    (as.forM fun a => scope.unplaced.checkExpr (type a).unplaced) =
      (as.forM fun a => scope.checkExpr (type a)).mapError CompileFault.unplaced := by
  rw [mapError_forM]
  exact congrArg (List.forM as) (funext fun a => scope.checkExpr_unplaced (type a))

theorem checkActor_unplaced (actor : Actor) :
    scope.unplaced.checkActor actor.unplaced =
      (scope.checkActor actor).mapError CompileFault.unplaced := by
  obtain ⟨name, position, init, body⟩ := actor
  refine bind_eq_mapError ?_ fun _ => bind_eq_mapError (scope.checkExpr_unplaced body) fun _ => ?_
  · cases init with
    | none => rfl
    | some args => exact (List.forM_map ..).trans (scope.checkExprs_unplaced args ArgExpr.type)
  · cases body with
    | name target =>
      refine Eq.trans ?_ (ite_eq_mapError (x := .ok ()) (y := .error _) rfl rfl)
      rw [← (kinds_unplaced scope _).2]
      rfl
    | primitive | blob => rfl
    | form f =>
      dsimp only [Actor.unplaced]
      rw [TypeExpr.unplaced_form]
      rfl

end Scope

namespace Program

theorem check_unplaced (program : Program) :
    program.unplaced.check = program.check.mapError CompileFault.unplaced := by
  obtain ⟨imports, definitions, actor⟩ := program
  refine bind_eq_mapError (Scope.checkNames_unplaced definitions []) fun _ =>
    bind_eq_mapError (Scope.checkRecursion_unplaced definitions) fun _ =>
    bind_eq_mapError ?_ fun _ => ?_
  · exact (List.forM_map ..).trans (Scope.checkExprs_unplaced definitions definitions Definition.type)
  · cases actor with
    | none => rfl
    | some actor => exact Scope.checkActor_unplaced definitions actor

theorem liftCompile_unplaced {α : Type} (x : Except CompileFault α) :
    liftCompile (x.mapError CompileFault.unplaced) = (liftCompile x).mapError Failure.unplaced := by
  cases x <;> rfl

theorem liftWire_unplaced {α : Type} (x : Except Fault α) :
    liftWire x = (liftWire x).mapError Failure.unplaced := by
  cases x <;> rfl

theorem tableOf_unplaced (definitions : List (String × Ty)) :
    tableOf definitions = (tableOf definitions).mapError Failure.unplaced := by
  have hbind : ∀ table (ds : List (String × Ty)),
      bindAll table ds = (bindAll table ds).mapError Failure.unplaced := fun table ds =>
    foldlM_eq_mapError (fun _ _ => bind_eq_mapError (liftWire_unplaced _) fun _ => rfl) ds table
  exact bind_eq_mapError (hbind _ _) fun _ => hbind _ _

theorem serviceType_unplaced (scope : Scope) (actor : Actor) :
    serviceType scope.unplaced actor.unplaced =
      (serviceType scope actor).mapError CompileFault.unplaced := by
  obtain ⟨name, position, init, body⟩ := actor
  refine bind_eq_mapError ?_ fun _ => bind_eq_mapError (scope.typeOf_unplaced body) fun _ => rfl
  cases init with
  | none => rfl
  | some args =>
    rw [mapError_mapM]
    refine (List.mapM_map ..).trans (congrArg (List.mapM · args) (funext fun arg => ?_))
    exact scope.typeOf_unplaced arg.type

/-- A program without places is compiled to the same types, or it fails for the same cause. -/
theorem interface_unplaced (program : Program) :
    program.unplaced.interface = unplacedResult Interface.unplaced program.interface := by
  change _ = (Interface.unplaced <$> program.interface).mapError Failure.unplaced
  obtain ⟨imports, definitions, actor⟩ := program
  have hcheck := check_unplaced ⟨imports, definitions, actor⟩
  have htypes : (Scope.unplaced definitions).mapM
        (fun d => return (d.name, ← (Scope.unplaced definitions).typeOf d.type)) =
      (List.mapM (fun d : Definition => return (d.name, ← Scope.typeOf definitions d.type))
        definitions).mapError CompileFault.unplaced := by
    rw [mapError_mapM]
    refine (List.mapM_map ..).trans (congrArg (List.mapM · definitions) (funext fun d => ?_))
    exact bind_eq_mapError (Scope.typeOf_unplaced definitions d.type) fun _ => rfl
  rw [interface, interface]
  simp only [map_bind]
  refine bind_eq_mapError (by rw [hcheck, liftCompile_unplaced]) fun _ =>
    bind_eq_mapError ((congrArg liftCompile htypes).trans (liftCompile_unplaced _)) fun types =>
    bind_eq_mapError (tableOf_unplaced types) fun table => ?_
  cases actor with
  | none => rfl
  | some actor =>
    dsimp only [Program.unplaced, Option.map_some]
    simp only [map_bind]
    refine bind_eq_mapError ((congrArg liftCompile (serviceType_unplaced definitions actor)).trans
      (liftCompile_unplaced _)) fun service => bind_eq_mapError ?_ fun _ => rfl
    exact foldlM_eq_mapError (fun _ _ => bind_eq_mapError (liftWire_unplaced _) fun _ => rfl) _ table

end Program
end Didl.Idl
