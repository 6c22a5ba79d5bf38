import Didl.Proofs.Growing
import Didl.Proofs.Meaning

namespace Didl

/-- Whether there is a value of what shows a former, if there are those of the members that `P` holds
of. -/
def Former.Admits {α : Type} (P : α → Prop) : Former α → Prop
  | .prim p => p ≠ .empty
  | .composite (.record fields) => ∀ f ∈ fields, P f.type
  | .composite (.variant fields) => ∃ f ∈ fields, P f.type
  | .composite _ => True

theorem Former.Admits.imp {α : Type} {P Q : α → Prop} (hPQ : ∀ a, P a → Q a) {f : Former α}
    (h : f.Admits P) : f.Admits Q := by
  match f, h with
  | .prim _, h => exact h
  | .composite (.record _), h => exact fun f hf => hPQ _ (h f hf)
  | .composite (.variant _), ⟨f, hf, h⟩ => exact ⟨f, hf, hPQ _ h⟩
  | .composite (.opt _), _ | .composite (.vec _), _ | .composite (.func ..), _
  | .composite (.service _), _ | .composite (.future ..), _ => exact trivial

/-- Formers of related members admit values alike. -/
theorem Former.Admits.rel {α β : Type} {R : α → β → Prop} {P : α → Prop} {f : Former α}
    {g : Former β} (hfg : f.Rel R g) (h : f.Admits P) : g.Admits fun b => ∃ a, R a b ∧ P a := by
  cases hfg with
  | prim p => exact h
  | composite hcd =>
    cases hcd with
    | record hrows =>
      intro y hy
      obtain ⟨x, hx, hxy⟩ := exists_of_mem_right hrows hy
      exact ⟨x.type, hxy.2, h x hx⟩
    | variant hrows =>
      obtain ⟨x, hx, h⟩ := h
      obtain ⟨y, hy, hxy⟩ := exists_of_mem_right hrows.flip hx
      exact ⟨y, hy, x.type, hxy.2, h⟩
    | opt | vec | func | service | future => exact trivial

/-- What holds from some number on for each of finitely many holds from one number on for all. -/
theorem exists_common {α : Type} {P : Nat → α → Prop}
    (hmono : ∀ {m n a}, m ≤ n → P m a → P n a) {as : List α} (h : ∀ a ∈ as, ∃ n, P n a) :
    ∃ n, ∀ a ∈ as, P n a := by
  induction as with
  | nil => exact ⟨0, nofun⟩
  | cons a as ih =>
    obtain ⟨hfirst, hrest⟩ := List.forall_mem_cons.mp h
    obtain ⟨m, hm⟩ := hfirst
    obtain ⟨n, hn⟩ := ih hrest
    exact ⟨max m n, List.forall_mem_cons.mpr ⟨hmono (Nat.le_max_left m n) hm,
      fun b hb => hmono (Nat.le_max_right m n) (hn b hb)⟩⟩

theorem Former.Admits.common {α : Type} {P : Nat → α → Prop}
    (hmono : ∀ {m n a}, m ≤ n → P m a → P n a) {f : Former α}
    (h : f.Admits fun a => ∃ n, P n a) : ∃ n, f.Admits (P n) := by
  match f, h with
  | .prim _, h => exact ⟨0, h⟩
  | .composite (.record _), h =>
    exact exists_common (P := fun n (f : Field α) => P n f.type) (fun hmn h => hmono hmn h) h
  | .composite (.variant _), ⟨f, hf, n, hn⟩ => exact ⟨n, f, hf, hn⟩
  | .composite (.opt _), _ | .composite (.vec _), _ | .composite (.func ..), _
  | .composite (.service _), _ | .composite (.future ..), _ => exact ⟨0, trivial⟩

end Didl

namespace Didl.Idl

open Relation

inductive TypeExpr.Occurs (e' : TypeExpr) : TypeExpr → Prop
  | self : Occurs e' e'
  | member {f : Form TypeExpr} {e : TypeExpr} : e ∈ f.members → Occurs e' e → Occurs e' (.form f)

namespace TypeExpr
variable {e : TypeExpr}

@[simp] theorem occurs_name {x : String} {p : Position} : e.Occurs (.name x p) ↔ e = .name x p :=
  ⟨fun h => by cases h; rfl, fun h => h ▸ .self⟩

@[simp] theorem occurs_primitive {keyword : String} :
    e.Occurs (.primitive keyword) ↔ e = .primitive keyword :=
  ⟨fun h => by cases h; rfl, fun h => h ▸ .self⟩

@[simp] theorem occurs_form {f : Form TypeExpr} :
    e.Occurs (.form f) ↔ e = .form f ∨ ∃ m ∈ f.members, e.Occurs m := by
  constructor
  · intro h
    cases h with
    | self => exact .inl rfl
    | member hm h => exact .inr ⟨_, hm, h⟩
  · rintro (rfl | ⟨m, hm, h⟩)
    · exact .self
    · exact .member hm h

end TypeExpr

/-- What occurs in a part that is laid out occurs in the form, shorthands apart. -/
theorem TypeExpr.Occurs.of_layout {f : Form TypeExpr} {d : Composite TypeExpr} (hd : f.layout = .ok d)
    {e e' : TypeExpr} (he : e ∈ d.members) (h : e'.Occurs e) :
    e'.Occurs (.form f) ∨ (∃ x p, e' = .name x p) ∨ e' = .primitive Prim.null.keyword := by
  cases Form.holds_of_layout hd he with
  | member he => exact .inl (.member he h)
  | name x p => exact .inr (.inl ⟨x, p, TypeExpr.occurs_name.mp h⟩)
  | null => exact .inr (.inr (TypeExpr.occurs_primitive.mp h))

/-- The primitive type without values does not occur, and every variant has alternatives. -/
structure TypeExpr.Fillable (e : TypeExpr) : Prop where
  empty : ¬ (TypeExpr.primitive Prim.empty.keyword).Occurs e
  variants : ∀ fields, (TypeExpr.form (.variant fields)).Occurs e → fields ≠ []

theorem TypeExpr.Fillable.member {f : Form TypeExpr} (h : Fillable (.form f))
    {d : Composite TypeExpr} (hd : f.layout = .ok d) {m : TypeExpr} (hm : m ∈ d.members) :
    m.Fillable := by
  constructor
  case empty =>
    intro hoccurs
    rcases Occurs.of_layout hd hm hoccurs with hoccurs | ⟨_, _, heq⟩ | heq
    · exact h.empty hoccurs
    · cases heq
    · exact absurd (TypeExpr.primitive.inj heq) (by decide)
  case variants =>
    intro fields hoccurs
    rcases Occurs.of_layout hd hm hoccurs with hoccurs | ⟨_, _, heq⟩ | heq
    · exact h.variants fields hoccurs
    · cases heq
    · cases heq

/-- A choice of one alternative for each variant that has any. -/
structure Picks (pick : List (Field TypeExpr) → Option (Field TypeExpr)) : Prop where
  mem : ∀ {fields f}, pick fields = some f → f ∈ fields
  total : ∀ {fields}, fields ≠ [] → ∃ f, pick fields = some f

/-- The names that an expression leads to outside every option, vector and reference, where variants
are left by the alternatives that are picked; `passed` tells whether it takes one of them. -/
inductive TypeExpr.Needs (pick : List (Field TypeExpr) → Option (Field TypeExpr)) :
    Bool → TypeExpr → String → Prop
  | name (x : String) (p : Position) : Needs pick false (.name x p) x
  | record {fields : List (FieldExpr TypeExpr)} {rows : List (Field TypeExpr)} {f : Field TypeExpr}
      {passed : Bool} {y : String} : (Form.record fields).layout = .ok (.record rows) → f ∈ rows →
      Needs pick passed f.type y → Needs pick passed (.form (.record fields)) y
  | variant {fields : List (FieldExpr TypeExpr)} {rows : List (Field TypeExpr)} {f : Field TypeExpr}
      {passed : Bool} {y : String} : (Form.variant fields).layout = .ok (.variant rows) →
      pick rows = some f → Needs pick passed f.type y → Needs pick true (.form (.variant fields)) y

namespace Scope
variable {scope : Scope} {pick : List (Field TypeExpr) → Option (Field TypeExpr)} {e : TypeExpr}
  {x y : String} {n : Nat} {passed : Bool}

/-- An expression has a value of fewer than so many levels. -/
def Founded (scope : Scope) : Nat → TypeExpr → Prop
  | 0, _ => False
  | n + 1, e => ∃ f, scope.Shows e f ∧ f.Admits (scope.Founded n)

theorem Founded.mono {m n : Nat} (hmn : m ≤ n) {e : TypeExpr} (h : scope.Founded m e) :
    scope.Founded n e := by
  induction m generalizing n e with
  | zero => exact h.elim
  | succ m ih =>
    obtain ⟨n, rfl⟩ : ∃ k, n = k + 1 := ⟨n - 1, by omega⟩
    obtain ⟨f, hf, hadmits⟩ := h
    exact ⟨f, hf, hadmits.imp fun _ h => ih (by omega) h⟩

/-- What shows a former has a value if there are those of the members that it takes. -/
theorem founded_of_admits {f : Former TypeExpr} (hshows : scope.Shows e f)
    (h : f.Admits fun m => ∃ n, scope.Founded n m) : ∃ n, scope.Founded n e := by
  obtain ⟨n, hn⟩ := h.common fun hmn hm => hm.mono hmn
  exact ⟨n + 1, f, hshows, hn⟩

theorem founded_name {p : Position} (hx : scope.body? x = some e) :
    scope.Founded n (.name x p) ↔ scope.Founded n e := by
  cases n with
  | zero => exact Iff.rfl
  | succ n =>
    constructor
    · rintro ⟨f, hf, h⟩
      cases hf with
      | name hbody hf =>
        cases hbody.symm.trans hx
        exact ⟨f, hf, h⟩
    · rintro ⟨f, hf, h⟩
      exact ⟨f, .name hx hf, h⟩

theorem founded_record {fields : List (FieldExpr TypeExpr)} {rows : List (Field TypeExpr)}
    (hlayout : (Form.record fields).layout = .ok (.record rows))
    (h : scope.Founded (n + 1) (.form (.record fields))) : ∀ f ∈ rows, scope.Founded n f.type := by
  obtain ⟨slots, hslots, hrows⟩ := except_bind_eq_ok.mp hlayout
  cases hrows
  obtain ⟨_, hshows, h⟩ := h
  cases hshows with
  | record hdeclared hperm _ =>
    cases hdeclared.unique (declareAll_of_slots hslots)
    exact fun f hf => h f (hperm.mem_iff.mpr hf)

theorem founded_variant {fields : List (FieldExpr TypeExpr)} {rows : List (Field TypeExpr)}
    (hlayout : (Form.variant fields).layout = .ok (.variant rows))
    (h : scope.Founded (n + 1) (.form (.variant fields))) : ∃ f ∈ rows, scope.Founded n f.type := by
  obtain ⟨slots, hslots, hrows⟩ := except_bind_eq_ok.mp hlayout
  cases hrows
  obtain ⟨_, hshows, h⟩ := h
  cases hshows with
  | variant hdeclared hperm _ =>
    cases hdeclared.unique (declareAll_of_slots hslots)
    obtain ⟨f, hf, h⟩ := h
    exact ⟨f, hperm.mem_iff.mp hf, h⟩

/-- Alternatives can be picked that need no more levels than the others. -/
theorem exists_picks (scope : Scope) : ∃ pick, Picks pick ∧
    ∀ fields n, (∃ f ∈ fields, scope.Founded n f.type) →
      ∃ f, pick fields = some f ∧ scope.Founded n f.type := by
  have hbest : ∀ fields : List (Field TypeExpr), ∃ r : Option (Field TypeExpr),
      (∀ f, r = some f → f ∈ fields) ∧ (fields ≠ [] → ∃ f, r = some f) ∧
      ∀ n, (∃ f ∈ fields, scope.Founded n f.type) → ∃ f, r = some f ∧ scope.Founded n f.type := by
    intro fields
    by_cases hfounded : ∃ n, ∃ f ∈ fields, scope.Founded n f.type
    · classical
      obtain ⟨f, hf, hleast⟩ := Nat.find_spec hfounded
      exact ⟨some f, fun g hg => Option.some.inj hg ▸ hf, fun _ => ⟨f, rfl⟩,
        fun n hn => ⟨f, rfl, hleast.mono (Nat.find_le hn)⟩⟩
    · refine ⟨fields.head?, fun f hf => List.mem_of_head? hf, fun hne => ?_,
        fun n hn => absurd ⟨n, hn⟩ hfounded⟩
      exact Option.isSome_iff_exists.mp (List.isSome_head?.mpr hne)
  choose pick hmem htotal hleast using hbest
  exact ⟨pick, ⟨fun h => hmem _ _ h, fun h => htotal _ h⟩, hleast⟩

def Needs (scope : Scope) (pick : List (Field TypeExpr) → Option (Field TypeExpr)) (passed : Bool)
    (x y : String) : Prop :=
  ∃ e, scope.body? x = some e ∧ e.Needs pick passed y

def Leads (scope : Scope) (pick : List (Field TypeExpr) → Option (Field TypeExpr))
    (x y : String) : Prop :=
  ∃ passed, scope.Needs pick passed x y

def Grounded (scope : Scope) (n : Nat) (x : String) : Prop :=
  ∃ e, scope.body? x = some e ∧ scope.Founded n e

/-- No circle of definitions passes an alternative that is picked. -/
def Unwinds (scope : Scope) (pick : List (Field TypeExpr) → Option (Field TypeExpr)) : Prop :=
  ∀ x y, scope.Needs pick true x y → ¬ ReflTransGen (scope.Leads pick) y x

section Descent
variable (hleast : ∀ fields n, (∃ f ∈ fields, scope.Founded n f.type) →
  ∃ f, pick fields = some f ∧ scope.Founded n f.type)
include hleast

/-- Where the least alternatives are picked, an expression leads to what needs no more levels, and to
what needs fewer if it takes an alternative. -/
theorem grounded_of_needs (h : e.Needs pick passed y) (hn : scope.Founded n e) :
    ∃ m ≤ n, (passed = true → m < n) ∧ scope.Grounded m y := by
  induction h generalizing n with
  | name x p =>
    cases n with
    | zero => exact hn.elim
    | succ n =>
      obtain ⟨f, hshows, hadmits⟩ := hn
      cases hshows with
      | name hbody hshows => exact ⟨n + 1, Nat.le_refl _, nofun, _, hbody, f, hshows, hadmits⟩
  | record hlayout hf _ ih =>
    cases n with
    | zero => exact hn.elim
    | succ n =>
      obtain ⟨m, hm, _, hgrounded⟩ := ih (founded_record hlayout hn _ hf)
      exact ⟨m, Nat.le_succ_of_le hm, fun _ => Nat.lt_succ_of_le hm, hgrounded⟩
  | variant hlayout hf _ ih =>
    cases n with
    | zero => exact hn.elim
    | succ n =>
      obtain ⟨g, hg, hfounded⟩ := hleast _ n (founded_variant hlayout hn)
      cases hf.symm.trans hg
      obtain ⟨m, hm, _, hgrounded⟩ := ih hfounded
      exact ⟨m, Nat.le_succ_of_le hm, fun _ => Nat.lt_succ_of_le hm, hgrounded⟩

theorem Needs.grounded (h : scope.Needs pick passed x y) (hx : scope.Grounded n x) :
    ∃ m ≤ n, (passed = true → m < n) ∧ scope.Grounded m y := by
  obtain ⟨e, he, hneeds⟩ := h
  obtain ⟨e', he', hfounded⟩ := hx
  cases he.symm.trans he'
  exact grounded_of_needs hleast hneeds hfounded

theorem Leads.grounded (h : ReflTransGen (scope.Leads pick) x y) (hx : scope.Grounded n x) :
    ∃ m ≤ n, scope.Grounded m y := by
  induction h with
  | refl => exact ⟨n, Nat.le_refl n, hx⟩
  | tail _ hstep ih =>
    obtain ⟨m, hm, hgrounded⟩ := ih
    obtain ⟨_, hneeds⟩ := hstep
    obtain ⟨k, hk, _, hgrounded⟩ := Needs.grounded hleast hneeds hgrounded
    exact ⟨k, Nat.le_trans hk hm, hgrounded⟩

/-- Nothing that has a value leads back to itself through an alternative that was picked for its
levels. -/
theorem not_leads_of_grounded (hx : ∃ n, scope.Grounded n x) (h : scope.Needs pick true x y) :
    ¬ ReflTransGen (scope.Leads pick) y x := by
  classical
  intro hback
  obtain ⟨m, _, hlt, hy⟩ := Needs.grounded hleast h (Nat.find_spec hx)
  obtain ⟨k, hk, hx'⟩ := Leads.grounded hleast hback hy
  exact Nat.find_min hx (Nat.lt_of_le_of_lt hk (hlt rfl)) hx'

end Descent

theorem needs_defined (hpick : Picks pick) (hcheck : scope.checkExpr e = .ok ())
    (h : e.Needs pick passed y) : scope.isDefined y = true := by
  induction h with
  | name x p => exact checkDefined_eq_ok.mp hcheck
  | record hlayout hf _ ih => exact ih ((layout_checked hcheck hlayout).2 _ (List.mem_map_of_mem hf))
  | variant hlayout hf _ ih =>
    exact ih ((layout_checked hcheck hlayout).2 _ (List.mem_map_of_mem (hpick.mem hf)))

/-- What is led to without an alternative is held. -/
theorem mem_heldNames_of_needs (h : e.Needs pick passed y) (hpassed : passed = false)
    {held : List String} (hheld : e.heldNames = .ok held) : y ∈ held := by
  induction h generalizing held with
  | name x p =>
    cases hheld
    exact List.mem_singleton_self x
  | record hlayout hf _ ih =>
    obtain ⟨slots, hslots, hrows⟩ := except_bind_eq_ok.mp hlayout
    cases hrows
    obtain ⟨s, hs, rfl⟩ := List.mem_map.mp hf
    rw [heldNames_record] at hheld
    obtain ⟨slots', hslots', hheld⟩ := except_bind_eq_ok.mp hheld
    cases hslots.symm.trans hslots'
    obtain ⟨lists, hlists, hheld⟩ := except_bind_eq_ok.mp hheld
    cases hheld
    obtain ⟨l, hl, hsl⟩ := exists_of_mem_right (except_mapM_eq_ok.mp hlists).flip hs
    exact List.mem_flatten.mpr ⟨l, hl, ih hpassed hsl⟩
  | variant => cases hpassed

/-- No definition leads back to itself where none does through an alternative: the other circles were
refused. -/
theorem leads_acyclic (haccepted : scope.Accepted) (hunwinds : scope.Unwinds pick) (x : String) :
    ¬ TransGen (scope.Leads pick) x x := by
  have hholds : ∀ {x y}, scope.Needs pick false x y → scope.Holds x y := by
    rintro x y ⟨e, he, hneeds⟩
    obtain ⟨held, hheld, _⟩ := heldNames_of_checked (haccepted.body he)
    exact ⟨e, held, he, hheld, mem_heldNames_of_needs hneeds rfl hheld⟩
  -- a circle either passes an alternative, or each step of it is one that was searched
  have hpath : ∀ {x y}, TransGen (scope.Leads pick) x y → TransGen scope.Holds x y ∨
      ∃ a b, ReflTransGen (scope.Leads pick) x a ∧ scope.Needs pick true a b ∧
        ReflTransGen (scope.Leads pick) b y := by
    intro x y h
    induction h using TransGen.head_induction_on with
    | single h =>
      obtain ⟨_ | _, hneeds⟩ := h
      · exact .inl (.single (hholds hneeds))
      · exact .inr ⟨_, _, .refl, hneeds, .refl⟩
    | head h hrest ih =>
      obtain ⟨_ | _, hneeds⟩ := h
      · rcases ih with ih | ⟨a, b, hxa, hab, hby⟩
        · exact .inl (.head (hholds hneeds) ih)
        · exact .inr ⟨a, b, hxa.head ⟨_, hneeds⟩, hab, hby⟩
      · exact .inr ⟨_, _, .refl, hneeds, hrest.to_reflTransGen⟩
  intro h
  rcases hpath h with hheld | ⟨a, b, hxa, hab, hbx⟩
  · exact haccepted.acyclic x hheld
  · exact hunwinds a b hab (hbx.trans hxa)

/-- What a form lays out has a value if those members have one that are not left by an alternative. -/
theorem admits_of_needs (hpick : Picks pick) {f : Form TypeExpr} {d : Composite TypeExpr}
    (hd : f.layout = .ok d) (hfillable : (TypeExpr.form f).Fillable)
    (hneeds : ∀ passed y, (TypeExpr.form f).Needs pick passed y → ∃ n, scope.Grounded n y)
    (hmembers : ∀ m ∈ d.members, (∀ passed y, m.Needs pick passed y → ∃ n, scope.Grounded n y) →
      ∃ n, scope.Founded n m) :
    (Former.composite d.canonical).Admits fun m => ∃ n, scope.Founded n m := by
  cases f with
  | record fields =>
    obtain ⟨slots, _, heq⟩ := except_bind_eq_ok.mp hd
    cases heq
    intro row hrow
    have hrow := (sortBy_perm _ _).mem_iff.mp hrow
    exact hmembers _ (List.mem_map_of_mem hrow) fun passed y hy =>
      hneeds passed y (.record hd hrow hy)
  | variant fields =>
    obtain ⟨slots, hslots, heq⟩ := except_bind_eq_ok.mp hd
    cases heq
    have hlength := (declareAll_of_slots hslots).length_eq
    have hne : slots.map Slot.field ≠ [] := by
      intro heq
      have := hfillable.variants fields .self
      simp_all
    obtain ⟨row, hrow⟩ := hpick.total hne
    have hmem := hpick.mem hrow
    exact ⟨row, (sortBy_perm _ _).mem_iff.mpr hmem, hmembers _ (List.mem_map_of_mem hmem)
      fun passed y hy => hneeds true y (.variant hd hrow hy)⟩
  | opt | vec | service =>
    cases hd
    exact trivial
  | func args results words =>
    obtain ⟨modes, _, heq⟩ := except_bind_eq_ok.mp hd
    cases heq
    exact trivial

/-- An expression has a value if all that it leads to has one. -/
theorem founded_of_needs (hpick : Picks pick) {type : Ty} (h : scope.Denotes e type)
    (hfillable : e.Fillable)
    (hneeds : ∀ passed y, e.Needs pick passed y → ∃ n, scope.Grounded n y) :
    ∃ n, scope.Founded n e := by
  induction e using TypeExpr.induct generalizing type with
  | name x p =>
    obtain ⟨n, e, he, hfounded⟩ := hneeds false x (.name x p)
    exact ⟨n, (founded_name he).mpr hfounded⟩
  | primitive keyword =>
    obtain ⟨_, f, _, hshows, _⟩ := h.shows fun _ _ heq => TypeExpr.noConfusion heq
    cases hshows with
    | primitive hp =>
      refine ⟨1, _, .primitive hp, fun heq => hfillable.empty ?_⟩
      rw [← hp, heq]
      exact .self
  | blob => exact ⟨1, _, .blob, trivial⟩
  | form f ih =>
    obtain ⟨d, c, hd, hdc, _⟩ := typeOf_form.mp h.2
    obtain ⟨htidy, hchecked⟩ := layout_checked h.1 hd
    refine founded_of_admits (shows_of_layout hd htidy)
      (admits_of_needs hpick hd hfillable hneeds fun m hm hneeds => ?_)
    obtain ⟨type, _, htype⟩ :=
      exists_of_mem_right (Composite.rel_iff.mp (Composite.rel_of_mapM hdc)).2.flip hm
    exact ih d hd m hm ⟨hchecked m hm, htype⟩ (hfillable.member hd hm) hneeds

theorem exists_of_isDefined (hx : scope.isDefined x = true) : ∃ d ∈ scope, d.name = x := by
  obtain ⟨e, he⟩ := Option.isSome_iff_exists.mp hx
  obtain ⟨d, hd, _⟩ := Option.map_eq_some_iff.mp he
  exact ⟨d, List.mem_of_find?_eq_some hd, by simpa using List.find?_some hd⟩

/-- Where no definition leads back to itself all have values, by induction from those that lead to
nothing. -/
theorem grounded_of_acyclic (hacyclic : ∀ x, ¬ TransGen (scope.Leads pick) x x)
    (hdefined : ∀ x y, scope.Leads pick x y → scope.isDefined y = true)
    (hstep : ∀ x, scope.isDefined x = true → (∀ y, scope.Leads pick x y → ∃ n, scope.Grounded n y) →
      ∃ n, scope.Grounded n x) {x : String} (hx : scope.isDefined x = true) :
    ∃ n, scope.Grounded n x := by
  have hnames : {x | scope.isDefined x = true}.Finite := by
    refine (List.finite_toSet (scope.map Definition.name)).subset fun x hx => ?_
    obtain ⟨d, hd, rfl⟩ := exists_of_isDefined hx
    exact List.mem_map_of_mem hd
  have : Finite {x // scope.isDefined x = true} := hnames
  let back (a b : {x // scope.isDefined x = true}) : Prop := TransGen (scope.Leads pick) b a
  have : IsTrans _ back := ⟨fun _ _ _ hab hbc => hbc.trans hab⟩
  have : Std.Irrefl back := ⟨fun a => hacyclic a⟩
  have hwf : WellFounded back := Finite.wellFounded_of_trans_of_irrefl back
  have hall (a : {x // scope.isDefined x = true}) : ∃ n, scope.Grounded n a := by
    induction a using hwf.induction with
    | _ a ih => exact hstep a a.2 fun y hy => ih ⟨y, hdefined a y hy⟩ (.single hy)
  exact hall ⟨x, hx⟩

/-- All definitions have values exactly if alternatives can be picked so that no circle passes one of
them. -/
theorem founded_iff_picks (haccepted : scope.Accepted)
    (htyped : ∀ d ∈ scope, ∃ type, scope.typeOf d.type = .ok type)
    (hfillable : ∀ d ∈ scope, d.type.Fillable) :
    (∀ d ∈ scope, ∃ n, scope.Founded n d.type) ↔ ∃ pick, Picks pick ∧ scope.Unwinds pick := by
  have hbody {x : String} {e : TypeExpr} :=
    body?_eq_some (p := scope) (x := x) (e := e) (names_nodup haccepted.names)
  constructor
  · intro h
    obtain ⟨pick, hpick, hleast⟩ := exists_picks scope
    refine ⟨pick, hpick, fun x y hxy => not_leads_of_grounded hleast ?_ hxy⟩
    obtain ⟨e, he, _⟩ := hxy
    obtain ⟨d, hd, _, rfl⟩ := hbody.mp he
    obtain ⟨n, hn⟩ := h d hd
    exact ⟨n, _, he, hn⟩
  · rintro ⟨pick, hpick, hunwinds⟩ d hd
    have hgrounded := grounded_of_acyclic (leads_acyclic haccepted hunwinds)
      (fun x y ⟨_, e, he, hneeds⟩ => needs_defined hpick (haccepted.body he) hneeds) ?_
      (isDefined_of_mem_names (List.mem_map_of_mem hd))
    · obtain ⟨n, e, he, hn⟩ := hgrounded
      cases he.symm.trans (hbody.mpr ⟨d, hd, rfl, rfl⟩)
      exact ⟨n, hn⟩
    · intro x hx hleads
      obtain ⟨e, he⟩ := Option.isSome_iff_exists.mp hx
      obtain ⟨d, hd, _, rfl⟩ := hbody.mp he
      obtain ⟨type, htype⟩ := htyped d hd
      obtain ⟨n, hn⟩ := founded_of_needs hpick ⟨haccepted.exprs d hd, htype⟩
        (hfillable d hd) fun passed y hneeds => hleads y ⟨passed, _, he, hneeds⟩
      exact ⟨n, _, he, hn⟩

end Scope

end Didl.Idl
