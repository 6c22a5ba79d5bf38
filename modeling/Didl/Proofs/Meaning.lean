import Didl.Proofs.Compiling

namespace Didl.Idl
open Table

inductive Label.Means : Label → UInt32 → Option String → Prop
  | name (s : String) : Means (.name s) (labelId s) (some s)
  | text (s : String) : Means (.text s) (labelId s) (some s)
  | number {digits : String} {id : UInt32} :
      Layout.numeral? digits = some id → Means (.number digits) id none

/-- What a field in a list of fields declares, `index` fields being in front of it. -/
inductive Declares (isVariant : Bool) (index : Nat) : FieldExpr TypeExpr → Field TypeExpr → Prop
  | labelled {l : Label} {id : UInt32} {name : Option String} {e : TypeExpr} {p : Position} :
      l.Means id name → Declares isVariant index ⟨some l, some e, p⟩ ⟨id, name, e⟩
  | unlabelled {id : UInt32} {e : TypeExpr} {p : Position} :
      id.toNat = index → Declares isVariant index ⟨none, some e, p⟩ ⟨id, none, e⟩
  /-- A record lists the name of a type alone. -/
  | typeAlone {x : String} {id : UInt32} {p : Position} : isVariant = false → id.toNat = index →
      Declares isVariant index ⟨some (.name x), none, p⟩ ⟨id, none, .name x p⟩
  /-- An alternative that is listed alone carries null. -/
  | labelAlone {l : Label} {id : UInt32} {name : Option String} {p : Position} :
      isVariant = true → l.Means id name →
      Declares isVariant index ⟨some l, none, p⟩ ⟨id, name, .primitive "null"⟩

def DeclareAll (isVariant : Bool) (fields : List (FieldExpr TypeExpr))
    (rows : List (Field TypeExpr)) : Prop :=
  List.Forall₂ (fun (x : FieldExpr TypeExpr × Nat) row => Declares isVariant x.2 x.1 row)
    fields.zipIdx rows

/-- What an expression shows: a primitive type, or a form over expressions. Names are replaced by
their definitions, fields stand in the order of their numbers and methods in that of their names. -/
inductive Scope.Shows (scope : Scope) : TypeExpr → Former TypeExpr → Prop
  | name {x : String} {p : Position} {e : TypeExpr} {f : Former TypeExpr} :
      scope.body? x = some e → Shows scope e f → Shows scope (.name x p) f
  | primitive {keyword : String} {p : Prim} :
      p.keyword = keyword → Shows scope (.primitive keyword) (.prim p)
  | blob : Shows scope .blob (.composite (.vec (.primitive "nat8")))
  | opt (e : TypeExpr) : Shows scope (.form (.opt e)) (.composite (.opt e))
  | vec (e : TypeExpr) : Shows scope (.form (.vec e)) (.composite (.vec e))
  | record {fields : List (FieldExpr TypeExpr)} {rows sorted : List (Field TypeExpr)} :
      DeclareAll false fields rows → sorted.Perm rows →
      sorted.Pairwise (fun x y => x.id < y.id) →
      Shows scope (.form (.record fields)) (.composite (.record sorted))
  | variant {fields : List (FieldExpr TypeExpr)} {rows sorted : List (Field TypeExpr)} :
      DeclareAll true fields rows → sorted.Perm rows →
      sorted.Pairwise (fun x y => x.id < y.id) →
      Shows scope (.form (.variant fields)) (.composite (.variant sorted))
  | func {args results : List (ArgExpr TypeExpr)} {words : List String} {modes : List Mode} :
      modes.map Mode.keyword = words →
      Shows scope (.form (.func args results words))
        (.composite (.func (args.map (·.type)) (results.map (·.type)) modes))
  | service {methods : List (MethodExpr TypeExpr)} {sorted : List (Method TypeExpr)} :
      sorted.Perm (methods.map fun m => ⟨m.name, m.type⟩) →
      sorted.Pairwise (fun x y => x.name < y.name) →
      Shows scope (.form (.service methods)) (.composite (.service sorted))

/-- The infinite tree that an expression stands for: the shape at the end of each path of member
positions. -/
inductive Scope.Tree (scope : Scope) : TypeExpr → List Nat → Shape → Prop
  | root {e : TypeExpr} {f : Former TypeExpr} : scope.Shows e f → Tree scope e [] f.shape
  | under {e m : TypeExpr} {f : Former TypeExpr} {i : Nat} {path : List Nat} {s : Shape} :
      scope.Shows e f → f.members[i]? = some m → Tree scope m path s → Tree scope e (i :: path) s

/-- An expression stands for this tree, in which nothing is missing: each shape has its members. -/
structure Scope.Unfolds (scope : Scope) (e : TypeExpr) (tree : Unfolding) : Prop where
  exact : ∀ path s, tree path = some s ↔ scope.Tree e path s
  root : ∃ s, tree [] = some s
  whole : ∀ path s, tree path = some s → ∀ i < s.arity, ∃ s', tree (path ++ [i]) = some s'

theorem Label.Means.unique {l : Label} {id id' : UInt32} {name name' : Option String}
    (h : l.Means id name) (k : l.Means id' name') : id = id' ∧ name = name' := by
  cases h with
  | name | text =>
    cases k
    exact ⟨rfl, rfl⟩
  | number hid =>
    cases k with
    | number hid' => exact ⟨Option.some.inj (hid.symm.trans hid'), rfl⟩

theorem Declares.unique {isVariant : Bool} {index : Nat} {x : FieldExpr TypeExpr}
    {row row' : Field TypeExpr} (h : Declares isVariant index x row)
    (k : Declares isVariant index x row') : row = row' := by
  cases h with
  | labelled hl =>
    cases k with
    | labelled hl' =>
      obtain ⟨rfl, rfl⟩ := hl.unique hl'
      rfl
  | unlabelled hid =>
    cases k with
    | unlabelled hid' => rw [UInt32.toNat_inj.mp (hid.trans hid'.symm)]
  | typeAlone hv hid =>
    cases k with
    | typeAlone _ hid' => rw [UInt32.toNat_inj.mp (hid.trans hid'.symm)]
    | labelAlone hv' => simp [hv] at hv'
  | labelAlone hv hl =>
    cases k with
    | typeAlone hv' => simp [hv] at hv'
    | labelAlone _ hl' =>
      obtain ⟨rfl, rfl⟩ := hl.unique hl'
      rfl

theorem DeclareAll.unique {isVariant : Bool} {fields : List (FieldExpr TypeExpr)}
    {rows rows' : List (Field TypeExpr)} (h : DeclareAll isVariant fields rows)
    (k : DeclareAll isVariant fields rows') : rows = rows' := by
  unfold DeclareAll at h k
  generalize fields.zipIdx = fields at h k
  induction h generalizing rows' with
  | nil =>
    cases k
    rfl
  | cons hx _ ih =>
    cases k with
    | cons hx' k => rw [hx.unique hx', ih k]

theorem Prim.keyword_inj {p q : Prim} (h : p.keyword = q.keyword) : p = q := by
  revert h
  cases p <;> cases q <;> decide

theorem Mode.keyword_inj {m n : Mode} (h : m.keyword = n.keyword) : m = n := by
  revert h
  cases m <;> cases n <;> decide

namespace Scope
variable {scope : Scope}

/-- An expression shows one thing. -/
theorem Shows.unique {e : TypeExpr} {f g : Former TypeExpr} (h : scope.Shows e f)
    (k : scope.Shows e g) : f = g := by
  induction h with
  | name hbody _ ih =>
    cases k with
    | name hbody' k =>
      cases hbody.symm.trans hbody'
      exact ih k
  | primitive hp =>
    cases k with
    | primitive hq => rw [Prim.keyword_inj (hp.trans hq.symm)]
  | blob | opt | vec =>
    cases k
    rfl
  | record hrows hperm hasc =>
    cases k with
    | record hrows' hperm' hasc' =>
      cases hrows.unique hrows'
      rw [eq_of_ascending (hperm.trans hperm'.symm) hasc hasc']
  | variant hrows hperm hasc =>
    cases k with
    | variant hrows' hperm' hasc' =>
      cases hrows.unique hrows'
      rw [eq_of_ascending (hperm.trans hperm'.symm) hasc hasc']
  | func hmodes =>
    cases k with
    | func hmodes' =>
      rw [List.map_injective_iff.mpr (fun _ _ => Mode.keyword_inj) (hmodes.trans hmodes'.symm)]
  | service hperm hasc =>
    cases k with
    | service hperm' hasc' => rw [eq_of_ascending (hperm.trans hperm'.symm) hasc hasc']

theorem Shows.tree_nil {e : TypeExpr} {f : Former TypeExpr} (h : scope.Shows e f) {s : Shape} :
    scope.Tree e [] s ↔ s = f.shape := by
  constructor
  · rintro ⟨h'⟩
    rw [h'.unique h]
  · rintro rfl
    exact .root h

theorem Shows.tree_cons {e : TypeExpr} {f : Former TypeExpr} (h : scope.Shows e f) {i : Nat}
    {path : List Nat} {s : Shape} :
    scope.Tree e (i :: path) s ↔ ∃ m, f.members[i]? = some m ∧ scope.Tree m path s := by
  constructor
  · intro htree
    cases htree with
    | under h' hm htree =>
      cases h'.unique h
      exact ⟨_, hm, htree⟩
  · rintro ⟨m, hm, htree⟩
    exact .under h hm htree

/-- A name shows what the definition shows that it stands for. -/
theorem Shows.of_standsFor {x z : String} {e : TypeExpr} {f : Former TypeExpr} {p : Position}
    (h : scope.StandsFor x z e) (k : scope.Shows e f) : scope.Shows (.name x p) f := by
  induction h generalizing p with
  | self hbody _ => exact .name hbody k
  | through hbody _ ih => exact .name hbody (ih k)

def Denotes (scope : Scope) (e : TypeExpr) (type : Ty) : Prop :=
  scope.checkExpr e = .ok () ∧ scope.typeOf e = .ok type

end Scope

theorem Declares.of_slot {isVariant : Bool} {index : Nat} {x : FieldExpr TypeExpr}
    {s : Slot TypeExpr} (h : Layout.slot isVariant index x = .ok s) :
    Declares isVariant index x ⟨s.id, s.name, s.expr⟩ := by
  have hnumber : ∀ {digits : String} {p : Position} {id : UInt32},
      Layout.numbered digits p = .ok id → (Label.number digits).Means id none := by
    intro digits p id h
    unfold Layout.numbered at h
    split at h
    · cases h
      exact .number ‹_›
    · cases h
  have hplace : ∀ {p : Position} {id : UInt32}, Layout.positional index p = .ok id →
      id.toNat = index := by
    intro p id h
    unfold Layout.positional at h
    split at h
    · rename_i hlt
      cases h
      exact UInt32.toNat_ofNat_of_lt' hlt
    · cases h
  obtain ⟨label, type, p⟩ := x
  rcases type with _ | e <;> rcases label with _ | name | text | digits
  case none.none => cases h
  case none.some.name =>
    cases isVariant
    · obtain ⟨id, hid, h⟩ := except_bind_eq_ok.mp h
      cases h
      exact .typeAlone rfl (hplace hid)
    · cases h
      exact .labelAlone rfl (.name name)
  case none.some.text =>
    cases isVariant
    · cases h
    · cases h
      exact .labelAlone rfl (.text text)
  case none.some.number =>
    cases isVariant
    · cases h
    · obtain ⟨id, hid, h⟩ := except_bind_eq_ok.mp h
      cases h
      exact .labelAlone rfl (hnumber hid)
  case some.none =>
    obtain ⟨id, hid, h⟩ := except_bind_eq_ok.mp h
    cases h
    exact .unlabelled (hplace hid)
  case some.some.name =>
    cases h
    exact .labelled (.name name)
  case some.some.text =>
    cases h
    exact .labelled (.text text)
  case some.some.number =>
    obtain ⟨id, hid, h⟩ := except_bind_eq_ok.mp h
    cases h
    exact .labelled (hnumber hid)

/-- The slots of a list of fields are what the fields declare. -/
theorem declareAll_of_slots {isVariant : Bool} {fields : List (FieldExpr TypeExpr)}
    {slots : List (Slot TypeExpr)} (h : Layout.slots isVariant fields = .ok slots) :
    DeclareAll isVariant fields (slots.map fun s => ⟨s.id, s.name, s.expr⟩) := by
  have hfrom : ∀ (fields : List (FieldExpr TypeExpr)) (index : Nat) (slots : List (Slot TypeExpr)),
      Layout.slotsFrom isVariant index fields = .ok slots →
      List.Forall₂ (fun (x : FieldExpr TypeExpr × Nat) row => Declares isVariant x.2 x.1 row)
        (fields.zipIdx index) (slots.map fun s => ⟨s.id, s.name, s.expr⟩) := by
    intro fields
    induction fields with
    | nil =>
      intro index slots h
      cases h
      exact .nil
    | cons x xs ih =>
      intro index slots h
      obtain ⟨first, hfirst, h⟩ := except_bind_eq_ok.mp h
      obtain ⟨rest, hrest, h⟩ := except_bind_eq_ok.mp h
      cases h
      exact .cons (.of_slot hfirst) (ih (index + 1) rest hrest)
  exact hfrom fields 0 slots h

namespace Scope
variable {scope : Scope}

theorem words_of_modes {words : List String} {modes : List Mode}
    (h : words.mapM modeOf = .ok modes) : modes.map Mode.keyword = words := by
  rw [← List.forall₂_eq_eq_eq, List.forall₂_map_left_iff]
  refine (except_mapM_eq_ok.mp h).flip.imp fun mode word hmode => ?_
  unfold modeOf at hmode
  split at hmode
  · rename_i mode' hword
    cases hmode
    simpa using List.find?_some hword
  · cases hmode

/-- A form shows what it lays out, fields and methods in order. -/
theorem shows_of_layout {f : Form TypeExpr} {d : Composite TypeExpr} (hd : f.layout = .ok d)
    (htidy : d.shape.Tidy) : scope.Shows (.form f) (.composite d.canonical) := by
  cases f with
  | opt e =>
    cases hd
    exact .opt e
  | vec e =>
    cases hd
    exact .vec e
  | record fields =>
    obtain ⟨slots, hslots, hd⟩ := except_bind_eq_ok.mp hd
    cases hd
    exact .record (declareAll_of_slots hslots) (sortBy_perm _ _) (sortBy_ascending htidy)
  | variant fields =>
    obtain ⟨slots, hslots, hd⟩ := except_bind_eq_ok.mp hd
    cases hd
    exact .variant (declareAll_of_slots hslots) (sortBy_perm _ _) (sortBy_ascending htidy)
  | func args results words =>
    obtain ⟨modes, hmodes, hd⟩ := except_bind_eq_ok.mp hd
    cases hd
    exact .func (words_of_modes hmodes)
  | service methods =>
    cases hd
    exact .service (sortBy_perm _ _) (sortBy_ascending htidy)

/-- What an expression denotes that is no name shows what the expression shows. -/
theorem Denotes.shows {e : TypeExpr} (hnot : ∀ x p, e ≠ .name x p) {type : Ty}
    (h : scope.Denotes e type) : ∃ (head : Head) (f : Former TypeExpr), type = head.type ∧
      scope.Shows e f ∧ f.Rel scope.Denotes head.former := by
  obtain ⟨hcheck, h⟩ := h
  cases e with
  | name x p => exact absurd rfl (hnot x p)
  | primitive keyword =>
    unfold typeOf TypeExpr.fold primitiveOf at h
    split at h
    · rename_i p hp
      cases h
      exact ⟨.prim p, _, rfl, .primitive (by simpa using List.find?_some hp), .prim p⟩
    · cases h
  | blob =>
    cases h
    exact ⟨.composite (.vec (.prim .nat8)), _, rfl, .blob, .composite (.vec ⟨rfl, rfl⟩)⟩
  | form f =>
    obtain ⟨d, c, hd, hdc, rfl⟩ := typeOf_form.mp h
    obtain ⟨htidy, hchecked⟩ := layout_checked hcheck hd
    have hrel : d.Rel scope.Denotes c := (Composite.rel_of_mapM hdc).and_left hchecked
    exact ⟨.composite c.canonical, _, rfl, shows_of_layout hd htidy, .composite hrel.canonical⟩

def StandsAs (scope : Scope) (e : TypeExpr) (type : Ty) : Prop :=
  ∃ type', scope.Denotes e type' ∧ type'.same type = true

/-- A name denotes the primitive type or the definition that it stands for. -/
theorem Denotes.of_name {x : String} {p : Position} {type : Ty} (haccepted : scope.Accepted)
    (h : scope.Denotes (.name x p) type) : ∃ z e, scope.StandsFor x z e ∧
      (scope.Denotes e type ∨ scope.Defines z e ∧ type = .named z) := by
  obtain ⟨⟨z, e⟩, hcanonical, _⟩ := except_bind_eq_ok.mp h.2
  have hstands := haccepted.canonical.mp hcanonical
  refine ⟨z, e, hstands, (haccepted.typeOfName hstands h.2).imp_left fun htype => ?_⟩
  exact ⟨haccepted.body hstands.body.1, htype⟩

end Scope

/-- What is the same as a type that is no name shows the same, members being the same again. -/
theorem former_of_same (t : Table) {head : Head} {type : Ty} (h : head.type.same type = true) :
    ∃ g, t.former type = some g ∧ head.former.Rel (fun u v => u.same v = true) g := by
  cases head with
  | prim p =>
    cases type <;> simp only [Head.type, Ty.same, beq_iff_eq, Bool.false_eq_true] at h
    exact ⟨_, rfl, h ▸ .prim p⟩
  | composite c =>
    cases type with
    | prim | named => simp [Head.type, Ty.same] at h
    | composite d => exact ⟨_, rfl, .composite (Ty.same_composite.mp h)⟩

section Compiled
variable {scope : Scope} {P : Ty → Prop} {definitions : List (String × Ty)} {t : Table}
  (haccepted : scope.Accepted) (htyped : scope.Typed definitions)
  (hcompiled : Compiled P definitions t) (hbound : ∀ p ∈ definitions, t.isBound p.1 = true)
include haccepted htyped hcompiled hbound

/-- In the table of a program a type shows what the expression shows that it comes from. -/
theorem shows_of_standsAs {e : TypeExpr} {type : Ty} (h : scope.StandsAs e type) :
    ∃ f g, scope.Shows e f ∧ t.former type = some g ∧ f.Rel scope.StandsAs g := by
  have hplain : ∀ {e : TypeExpr} {type type' : Ty}, (∀ x p, e ≠ .name x p) →
      scope.Denotes e type' → type'.same type = true →
      ∃ f g, scope.Shows e f ∧ t.former type = some g ∧ f.Rel scope.StandsAs g := by
    intro e type type' hnot hdenotes hsame
    obtain ⟨head', f, rfl, hshows, hrel⟩ := hdenotes.shows hnot
    obtain ⟨g, hg, hsame⟩ := former_of_same t hsame
    exact ⟨f, g, hshows, hg, hrel.comp hsame⟩
  obtain ⟨type', hdenotes, hsame⟩ := h
  by_cases hname : ∃ x p, e = .name x p
  · obtain ⟨x, p, rfl⟩ := hname
    obtain ⟨z, e, hstands, hrest⟩ := hdenotes.of_name haccepted
    obtain ⟨hbody, hnot⟩ := hstands.body
    rcases hrest with hdenotes | ⟨_, rfl⟩
    · obtain ⟨f, g, hshows, hg, hrel⟩ := hplain hnot hdenotes hsame
      exact ⟨f, g, hshows.of_standsFor hstands, hg, hrel⟩
    · have hnodup := Scope.names_nodup haccepted.names
      obtain ⟨type₁, hmem, htype⟩ := htyped.lookup hbody
      obtain ⟨type₂, hsame₂, hfollow⟩ := hcompiled.named htyped hbound hnodup hmem
      obtain ⟨f, g, hshows, hg, hrel⟩ := hplain hnot ⟨haccepted.body hbody, htype⟩ hsame₂
      obtain rfl : type = .named z := by
        cases type <;> simp_all [Ty.same]
      exact ⟨f, g, hshows.of_standsFor hstands, by rw [former, hfollow]; exact hg, hrel⟩
  · have hnot : ∀ x p, e ≠ .name x p := fun x p heq => hname ⟨x, p, heq⟩
    exact hplain hnot hdenotes hsame

theorem tree_of_standsAs {e : TypeExpr} {type : Ty} (h : scope.StandsAs e type) (path : List Nat)
    (s : Shape) : t.unfolding type path = some s ↔ scope.Tree e path s := by
  induction path generalizing e type with
  | nil =>
    obtain ⟨f, g, hshows, hg, hrel⟩ := shows_of_standsAs haccepted htyped hcompiled hbound h
    rw [hshows.tree_nil, (Former.rel_iff.mp hrel).1]
    simp [unfolding, unfold, hg, eq_comm]
  | cons i path ih =>
    obtain ⟨f, g, hshows, hg, hrel⟩ := shows_of_standsAs haccepted htyped hcompiled hbound h
    have hplace := forall₂_getElem? (Former.rel_iff.mp hrel).2 i
    rw [hshows.tree_cons]
    simp only [unfolding, unfold, hg]
    generalize f.members[i]? = m, g.members[i]? = m' at hplace
    cases hplace with
    | none => simp
    | some hm => simpa [unfolding] using ih hm

theorem whole_of_standsAs {e : TypeExpr} {type : Ty} (h : scope.StandsAs e type) {path : List Nat}
    {s : Shape} (hs : t.unfolding type path = some s) {i : Nat} (hi : i < s.arity) :
    ∃ s', t.unfolding type (path ++ [i]) = some s' := by
  obtain ⟨f, g, _, hg, hrel⟩ := shows_of_standsAs haccepted htyped hcompiled hbound h
  have hmembers := (Former.rel_iff.mp hrel).2
  induction path generalizing e type f g with
  | nil =>
    simp only [unfolding, unfold, hg, Option.map_some, Option.some.injEq] at hs
    obtain ⟨m, hm⟩ : ∃ m, g.members[i]? = some m :=
      ⟨_, List.getElem?_eq_getElem (by rw [g.length_members, hs]; exact hi)⟩
    obtain ⟨e', _, hstands⟩ := exists_of_mem_right hmembers (List.mem_of_getElem? hm)
    obtain ⟨_, g', _, hg', _⟩ := shows_of_standsAs haccepted htyped hcompiled hbound hstands
    exact ⟨g'.shape, by simp [unfolding, unfold, hg, hm, hg']⟩
  | cons j path ih =>
    simp only [unfolding, unfold, hg] at hs
    split at hs
    · rename_i m hm
      obtain ⟨e', _, hstands⟩ := exists_of_mem_right hmembers (List.mem_of_getElem? hm)
      obtain ⟨f', g', hshows', hg', hrel'⟩ :=
        shows_of_standsAs haccepted htyped hcompiled hbound hstands
      obtain ⟨s', hs'⟩ := ih hstands hs f' g' hshows' hg' hrel' (Former.rel_iff.mp hrel').2
      exact ⟨s', by simpa [unfolding, unfold, hg, hm] using hs'⟩
    · cases hs

/-- In the table of a program a type has the tree of the expression that it comes from. -/
theorem unfolds_of_standsAs {e : TypeExpr} {type : Ty} (h : scope.StandsAs e type) :
    scope.Unfolds e (t.unfolding type) := by
  refine ⟨tree_of_standsAs haccepted htyped hcompiled hbound h, ?_, fun path s hs i hi =>
    whole_of_standsAs haccepted htyped hcompiled hbound h hs hi⟩
  obtain ⟨f, g, _, hg, _⟩ := shows_of_standsAs haccepted htyped hcompiled hbound h
  exact ⟨g.shape, by simp [unfolding, unfold, hg]⟩

end Compiled

/-- A program that compiles keeps what its source means: each definition's name has the tree of its
expression in the program's table, and so have the types of the declared service. -/
theorem Program.interface_unfolds {program : Program} {i : Interface}
    (h : program.interface = .ok i) :
    (∀ d ∈ program.definitions,
      Scope.Unfolds program.definitions d.type (i.table.unfolding (.named d.name))) ∧
    Option.Rel (fun actor service =>
      List.Forall₂ (fun (a : ArgExpr TypeExpr) type =>
        Scope.Unfolds program.definitions a.type (i.table.unfolding type))
        (actor.init.getD []) service.init ∧
      Scope.Unfolds program.definitions actor.body (i.table.unfolding service.type))
      program.actor i.service := by
  obtain ⟨hcheck, _, htyped, hservice, _⟩ := interface_eq_ok.mp h
  obtain ⟨haccepted, hactor⟩ := check_eq_ok.mp hcheck
  obtain ⟨hcompiled, hbound⟩ :=
    interface_compiled (P := fun _ => True) h (fun _ _ => trivial) fun _ _ => trivial
  have hunfolds {e : TypeExpr} {type type' : Ty}
      (hchecked : Scope.checkExpr program.definitions e = .ok ())
      (htype : Scope.typeOf program.definitions e = .ok type) (hsame : type.same type' = true) :=
    unfolds_of_standsAs haccepted htyped hcompiled hbound ⟨type, ⟨hchecked, htype⟩, hsame⟩
  constructor
  · intro d hd
    obtain ⟨⟨x, type⟩, hmem, rfl, htype⟩ := exists_of_mem_right htyped.flip hd
    obtain ⟨type', hsame, hfollow⟩ :=
      hcompiled.named htyped hbound (Scope.names_nodup haccepted.names) hmem
    have hroot : i.table.former (.named d.name) = i.table.former type' := by
      simp only [former, hfollow]
    rw [unfolding, unfold_congr hroot]
    exact hunfolds (haccepted.exprs d hd) htype hsame
  · cases hprogram : program.actor with
    | none =>
      rw [hprogram] at hservice
      generalize i.service = service at hservice
      cases hservice
      exact .none
    | some actor =>
      rw [hprogram] at hservice
      generalize i.service = service at hservice
      cases hservice with
      | some hservice =>
        obtain ⟨_, hinit, hbody⟩ := serviceType_eq_ok.mp hservice
        obtain ⟨hchecked, _⟩ := checkActor_eq_ok (hactor actor hprogram)
        rw [Actor.exprs, List.forall_mem_append, List.forall_mem_map,
          List.forall_mem_singleton] at hchecked
        have hargs := (List.forall₂_and_left _ _).mpr ⟨hchecked.1, hinit⟩
        exact .some ⟨hargs.imp fun _ _ harg => hunfolds harg.1 harg.2 (Ty.same_refl _),
          hunfolds hchecked.2 hbody (Ty.same_refl _)⟩

def ringProgram : Program :=
  let p : Position := ⟨1, 1⟩
  ⟨[], [⟨"A", p, .name "B" p⟩,
    ⟨"B", p, .form (.record [⟨some (.name "C"), none, p⟩, ⟨some (.number "4"), some .blob, p⟩,
      ⟨some (.name "next"), some (.form (.variant [⟨some (.name "end"), none, p⟩,
        ⟨some (.name "more"), some (.name "A" p), p⟩])), p⟩])⟩,
    ⟨"C", p, .primitive "nat"⟩],
    some ⟨none, p, some [⟨none, .name "A" p⟩], .form (.service [⟨"get", p,
      .form (.func [] [⟨none, .name "A" p⟩] ["query"])⟩])⟩⟩

theorem interface_unfolds_ring : ∃ i, ringProgram.interface = .ok i ∧
    Scope.Unfolds ringProgram.definitions (.name "B" ⟨1, 1⟩) (i.table.unfolding (.named "A")) := by
  have hok : ringProgram.interface.isOk = true := by cbv
  cases hi : ringProgram.interface with
  | error e =>
    rw [hi] at hok
    cases hok
  | ok i => exact ⟨i, rfl, (Program.interface_unfolds hi).1 _ List.mem_cons_self⟩

end Didl.Idl
