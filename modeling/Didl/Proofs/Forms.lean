import Didl.Idl.Denotation
import Didl.Proofs.Traversal

namespace Didl.Idl

namespace Form
variable {α β : Type}

theorem members_map (g : α → β) (f : Form α) : (f.map g).members = f.members.map g := by
  cases f with
  | opt e | vec e => rfl
  | record fs | variant fs =>
    simp only [map, members, List.filterMap_map, List.map_filterMap]
    rfl
  | func args results modes => simp [map, members, Function.comp_def]
  | service ms => simp [map, members]

theorem map_fst (g : α → β) (f : Form α) : (f.map fun e => (e, g e)).map Prod.fst = f := by
  cases f <;> simp [map, Function.comp_def]

end Form

namespace TypeExpr
variable {β : Type} (name : String → Position → β) (primitive : String → β) (blob : β)
  (form : Form (TypeExpr × β) → β)

theorem foldFields_eq (fs : List (FieldExpr TypeExpr)) : foldFields name primitive blob form fs =
    fs.map fun x =>
      ⟨x.label, x.type.map fun e => (e, fold name primitive blob form e), x.position⟩ := by
  induction fs with
  | nil => rfl
  | cons x xs ih =>
    obtain ⟨label, _ | e, position⟩ := x <;> rw [foldFields, ih] <;> rfl

theorem foldArgs_eq (as : List (ArgExpr TypeExpr)) : foldArgs name primitive blob form as =
    as.map fun a => ⟨a.name, (a.type, fold name primitive blob form a.type)⟩ := by
  induction as with
  | nil => rfl
  | cons a as ih => rw [foldArgs, ih]; rfl

theorem foldMethods_eq (ms : List (MethodExpr TypeExpr)) : foldMethods name primitive blob form ms =
    ms.map fun m => ⟨m.name, m.position, (m.type, fold name primitive blob form m.type)⟩ := by
  induction ms with
  | nil => rfl
  | cons m ms ih => rw [foldMethods, ih]; rfl

theorem fold_form (f : Form TypeExpr) : fold name primitive blob form (.form f) =
    form (f.map fun e => (e, fold name primitive blob form e)) := by
  cases f <;> simp only [fold, foldForm, foldFields_eq, foldArgs_eq, foldMethods_eq, Form.map]

end TypeExpr

def Content.map {α β : Type} (g : α → β) : Content α → Content β
  | .expr e => .expr (g e)
  | .named x => .named x
  | .null => .null

def Slot.map {α β : Type} (g : α → β) (s : Slot α) : Slot β :=
  ⟨s.id, s.name, s.content.map g, s.position⟩

def Slot.expr (s : Slot TypeExpr) : TypeExpr :=
  match s.content with
  | .expr e => e
  | .named x => .name x s.position
  | .null => .primitive Prim.null.keyword

namespace Layout
variable {α β : Type}

/-- Which fields there are does not hang on what they hold. -/
theorem slot_map (g : α → β) (isVariant : Bool) (index : Nat) (x : FieldExpr α) :
    slot isVariant index ⟨x.label, x.type.map g, x.position⟩ =
      Slot.map g <$> slot isVariant index x := by
  obtain ⟨label, type, position⟩ := x
  have hid : ∀ (r : Except CompileFault UInt32) (content : Content α),
      (do return (⟨← r, none, content.map g, position⟩ : Slot β)) =
        Slot.map g <$> (do return ⟨← r, none, content, position⟩) := by
    intro r content
    cases r <;> rfl
  rcases type with _ | e <;> rcases label with _ | name | text | digits
  case none.some.name =>
    cases isVariant
    · exact hid (positional index position) (.named name)
    · rfl
  case none.some.number =>
    cases isVariant
    · rfl
    · exact hid (numbered digits position) .null
  case some.none => exact hid (positional index position) (.expr e)
  case some.some.number => exact hid (numbered digits position) (.expr e)
  case none.some.text => cases isVariant <;> rfl
  all_goals rfl

theorem slotsFrom_map (g : α → β) (isVariant : Bool) (index : Nat) (fields : List (FieldExpr α)) :
    slotsFrom isVariant index (fields.map fun x => ⟨x.label, x.type.map g, x.position⟩) =
      List.map (Slot.map g) <$> slotsFrom isVariant index fields := by
  induction fields generalizing index with
  | nil => rfl
  | cons x xs ih =>
    rw [List.map_cons, slotsFrom, slotsFrom, slot_map, ih]
    simp

/-- What a slot holds is what its field holds. -/
theorem content_of_slot {isVariant : Bool} {index : Nat} {x : FieldExpr α} {s : Slot α}
    (h : slot isVariant index x = .ok s) {e : α} (he : s.content = .expr e) : x.type = some e := by
  obtain ⟨label, type, position⟩ := x
  have hid : ∀ {r : Except CompileFault UInt32} {content : Content α},
      (do return (⟨← r, none, content, position⟩ : Slot α)) = .ok s → content = .expr e := by
    intro r content hr
    obtain ⟨id, _, hs⟩ := except_bind_eq_ok.mp hr
    cases hs
    exact he
  have hexpr : ∀ {e' : α}, Content.expr e' = .expr e → some e' = some e := by
    rintro _ ⟨⟩
    rfl
  rcases type with _ | e' <;> rcases label with _ | name | text | digits
  case some.none => exact hexpr (hid h)
  case some.some.number => exact hexpr (hid h)
  case none.none => cases h
  case none.some.name =>
    cases isVariant
    · cases hid h
    · cases h
      cases he
  case none.some.text =>
    cases isVariant
    · cases h
    · cases h
      cases he
  case none.some.number =>
    cases isVariant
    · cases h
    · cases hid h
  all_goals
    cases h
    exact hexpr he

theorem content_of_slotsFrom {isVariant : Bool} {index : Nat} {fields : List (FieldExpr α)}
    {slots : List (Slot α)} (h : slotsFrom isVariant index fields = .ok slots) {s : Slot α}
    (hs : s ∈ slots) {e : α} (he : s.content = .expr e) : e ∈ fields.filterMap (·.type) := by
  induction fields generalizing index slots with
  | nil =>
    cases h
    cases hs
  | cons x xs ih =>
    obtain ⟨first, hfirst, h⟩ := except_bind_eq_ok.mp h
    obtain ⟨rest, hrest, h⟩ := except_bind_eq_ok.mp h
    cases h
    rw [List.mem_filterMap]
    rcases List.mem_cons.mp hs with rfl | hs
    · exact ⟨x, List.mem_cons_self, content_of_slot hfirst he⟩
    · obtain ⟨y, hy, hye⟩ := List.mem_filterMap.mp (ih hrest hs)
      exact ⟨y, List.mem_cons_of_mem _ hy, hye⟩

end Layout

def Slot.field (s : Slot TypeExpr) : Field TypeExpr := ⟨s.id, s.name, s.expr⟩

/-- The composite of expressions that a form lays out, in source order. -/
def Form.layout : Form TypeExpr → Except CompileFault (Composite TypeExpr)
  | .opt e => .ok (.opt e)
  | .vec e => .ok (.vec e)
  | .record fields => return .record ((← Layout.slots false fields).map Slot.field)
  | .variant fields => return .variant ((← Layout.slots true fields).map Slot.field)
  | .func args results words =>
    return .func (args.map (·.type)) (results.map (·.type)) (← words.mapM modeOf)
  | .service methods => .ok (.service (methods.map fun m => ⟨m.name, m.type⟩))

inductive Form.Holds (f : Form TypeExpr) : TypeExpr → Prop
  | member {e : TypeExpr} : e ∈ f.members → Holds f e
  | name (x : String) (p : Position) : Holds f (.name x p)
  | null : Holds f (.primitive Prim.null.keyword)

theorem Layout.holds_of_slots {isVariant : Bool} {fields : List (FieldExpr TypeExpr)}
    {f : Form TypeExpr} (hf : f.members = fields.filterMap (·.type))
    {slots : List (Slot TypeExpr)} (hslots : Layout.slots isVariant fields = .ok slots)
    {s : Slot TypeExpr} (hs : s ∈ slots) : f.Holds s.expr := by
  unfold Slot.expr
  split
  · rename_i e heq
    exact .member (hf ▸ content_of_slotsFrom hslots hs heq)
  · exact .name _ _
  · exact .null

theorem Form.holds_of_layout {f : Form TypeExpr} {d : Composite TypeExpr} (h : f.layout = .ok d)
    {e : TypeExpr} (he : e ∈ d.members) : f.Holds e := by
  cases f with
  | opt | vec =>
    cases h
    exact .member he
  | record fields | variant fields =>
    obtain ⟨slots, hslots, h⟩ := except_bind_eq_ok.mp h
    cases h
    rw [Composite.members, List.map_map] at he
    obtain ⟨s, hs, rfl⟩ := List.mem_map.mp he
    exact Layout.holds_of_slots rfl hslots hs
  | func args results words =>
    obtain ⟨modes, _, h⟩ := except_bind_eq_ok.mp h
    cases h
    exact .member (by simpa [Composite.members, Form.members] using he)
  | service methods =>
    cases h
    exact .member (by simpa [Composite.members, Form.members] using he)

theorem Form.sizeOf_lt_of_mem {f : Form TypeExpr} {e : TypeExpr} (h : e ∈ f.members) :
    sizeOf e < sizeOf f := by
  cases f with
  | opt e' | vec e' =>
    rw [List.mem_singleton.mp h]
    simp
  | record fs | variant fs =>
    obtain ⟨x, hx, hxe⟩ := List.mem_filterMap.mp h
    have := List.sizeOf_lt_of_mem hx
    obtain ⟨label, type, position⟩ := x
    simp_all
    omega
  | func args results words =>
    obtain ⟨a, ha, rfl⟩ := List.mem_map.mp h
    rcases List.mem_append.mp ha with ha | ha <;>
    · have := List.sizeOf_lt_of_mem ha
      obtain ⟨name, type⟩ := a
      simp_all
      omega
  | service ms =>
    obtain ⟨m, hm, rfl⟩ := List.mem_map.mp h
    have := List.sizeOf_lt_of_mem hm
    obtain ⟨name, position, type⟩ := m
    simp_all
    omega

/-- What holds of names and of primitive types, and of a form wherever it holds of what the form lays
out, holds of every expression. -/
@[elab_as_elim]
theorem TypeExpr.induct {P : TypeExpr → Prop} (name : ∀ x p, P (.name x p))
    (primitive : ∀ keyword, P (.primitive keyword)) (blob : P .blob)
    (form : ∀ f : Form TypeExpr, (∀ d, f.layout = .ok d → ∀ e ∈ d.members, P e) → P (.form f)) :
    ∀ e, P e
  | .name x p => name x p
  | .primitive keyword => primitive keyword
  | .blob => blob
  | .form f => form f fun _ hd e he =>
    match e, Form.holds_of_layout hd he with
    | e, .member _ => induct name primitive blob form e
    | _, .name x p => name x p
    | _, .null => primitive _
termination_by e => sizeOf e
decreasing_by
  have := Form.sizeOf_lt_of_mem ‹_›
  simp
  omega

end Didl.Idl
