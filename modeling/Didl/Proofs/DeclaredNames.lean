import Didl.Proofs.Compiling
import Didl.Proofs.Rendering

namespace Didl

def Ty.firstSame? (cs : List (Composite Ty)) (c : Composite Ty) : Option (Composite Ty) :=
  cs.find? fun e => (Ty.composite e).same (.composite c)

namespace Table
variable {t u : Table}

theorem firstSame?_add (t : Table) (c d : Composite Ty) :
    Ty.firstSame? (t.add c).entries d = Ty.firstSame? (t.entries ++ [c]) d := by
  unfold add
  split
  · rename_i i hi
    obtain ⟨e, he, hsame⟩ := indexOf?_eq_some hi
    simp only [Ty.firstSame?, List.find?_append]
    cases hfirst : t.entries.find? fun e => (Ty.composite e).same (.composite d) with
    | some e' => rfl
    | none =>
      -- The entry in front of `c` would have been found as well.
      have hnot : (Ty.composite c).same (.composite d) = false := by
        by_contra hcd
        rw [Bool.not_eq_false] at hcd
        exact List.find?_eq_none.mp hfirst e (List.mem_of_getElem? he) (Ty.same_trans hsame hcd)
      simp [hnot]
  · rfl

/-- A table shows each type as the first one of its kind that was added. -/
theorem firstSame?_addAll (t : Table) (cs : List (Composite Ty)) (d : Composite Ty) :
    Ty.firstSame? (cs.foldl add t).entries d = Ty.firstSame? (t.entries ++ cs) d := by
  induction cs generalizing t with
  | nil => simp
  | cons c cs ih =>
    have hadd := firstSame?_add t c d
    simp only [Ty.firstSame?] at hadd ih ⊢
    rw [List.foldl_cons, ih, List.find?_append, hadd, ← List.find?_append, List.append_assoc,
      List.singleton_append]

theorem typeOfCode_of_codeOf {c : Composite Ty} {code : Int}
    (h : t.codeOf (.composite c) = .ok code) :
    ∃ e, Ty.firstSame? t.entries c = some e ∧ t.typeOfCode code = .ok (.composite e) := by
  simp only [codeOf] at h
  split at h
  · rename_i i hi
    cases h
    obtain ⟨e, he, _⟩ := indexOf?_eq_some hi
    refine ⟨e, ?_, typeOfCode_index he⟩
    rw [indexOf?] at hi
    rw [Ty.firstSame?, List.find?_eq_bind_findIdx?_getElem?, hi, Option.bind_some, he]
  · cases h

theorem registerLabel_new {name : String} {type : Ty} {code : Int}
    (hnone : t.labelCode? name = none) (h : t.registerLabel name type = .ok (code, u)) :
    u = { type.parts.foldl add t with labels := t.labels ++ [(name, code)] } := by
  unfold registerLabel at h
  rw [hnone] at h
  dsimp only at h
  split at h
  · rename_i code' v hreg
    obtain ⟨rfl, _⟩ := register_eq t type hreg
    cases h
    rw [addAll_labels]
  · cases h

end Table

namespace Idl.Program
open Table
variable {definitions : List (String × Ty)} {t u : Table}

/-- Binding new names adds the constructed types of their definitions in turn. -/
theorem firstSame?_bindAll (hnew : ∀ p ∈ definitions, t.labelCode? p.1 = none)
    (hnodup : (definitions.map Prod.fst).Nodup) (h : bindAll t definitions = .ok u)
    (d : Composite Ty) :
    Ty.firstSame? u.entries d =
      Ty.firstSame? (t.entries ++ definitions.flatMap (·.2.parts)) d := by
  induction definitions generalizing t with
  | nil =>
    cases h
    simp
  | cons p definitions ih =>
    obtain ⟨v, hv, h⟩ := except_bind_eq_ok.mp h
    obtain ⟨⟨code, v'⟩, hreg, hv⟩ := except_bind_eq_ok.mp hv
    cases hv
    rw [liftWire_eq_ok] at hreg
    obtain ⟨hfresh, hnodup⟩ := List.nodup_cons.mp hnodup
    have hnone := hnew p List.mem_cons_self
    obtain rfl := registerLabel_new hnone hreg
    have hlabels : ∀ q ∈ definitions,
        labelCode? { p.2.parts.foldl add t with labels := t.labels ++ [(p.1, code)] } q.1 = none := by
      intro q hq
      have hne : q.1 ≠ p.1 := fun heq => hfresh (heq ▸ List.mem_map_of_mem hq)
      refine (labelCode?_bind hnone q.1).trans ?_
      rw [if_neg hne, hnew q (List.mem_cons_of_mem _ hq)]
    have hadd := firstSame?_addAll t p.2.parts d
    have hrest := ih hlabels hnodup h
    simp only [Ty.firstSame?] at hadd hrest ⊢
    rw [hrest, List.find?_append, hadd, ← List.find?_append, List.append_assoc, List.flatMap_cons]

/-- Aliases add nothing. -/
theorem entries_bindAll (halias : ∀ p ∈ definitions, isAlias p.2 = true)
    (h : bindAll t definitions = .ok u) : u.entries = t.entries := by
  refine except_foldlM_invariant (I := fun v => v.entries = t.entries)
    (fun p hp v v' hv hstep => ?_) h rfl
  obtain ⟨⟨code, w⟩, hreg, hstep⟩ := except_bind_eq_ok.mp hstep
  cases hstep
  rw [liftWire_eq_ok] at hreg
  cases hbound : v.labelCode? p.1 with
  | some code' =>
    rcases registerLabel_eq_ok hreg with ⟨_, rfl⟩ | ⟨hnone, _⟩
    · exact hv
    · rw [hbound] at hnone
      cases hnone
  | none =>
    obtain rfl := registerLabel_new hbound hreg
    obtain ⟨x, htype⟩ : ∃ x, p.2 = .named x := by
      have htype := halias p hp
      unfold isAlias at htype
      split at htype
      · exact ⟨_, ‹_›⟩
      · cases htype
    rw [htype]
    exact hv

end Idl.Program

namespace Idl.Interface
open Program

/-- The constructed types of the definitions that are no aliases, in the order in which they are
registered: definition by definition, and each type before its members. -/
def registered (i : Interface) : List (Composite Ty) :=
  (i.definitions.filter fun d => !isAlias d.2).flatMap (·.2.parts)

/-- The type whose names of fields are shown for a type: the first one registered that differs from
it in these names at most. -/
def shown (i : Interface) : Ty → Ty
  | .composite c => .composite ((Ty.firstSame? i.registered c).getD c)
  | type => type

variable {program : Program} {i : Interface} {x : String} {type : Ty}

theorem mem_registered (hx : (x, type) ∈ i.definitions) (hown : isAlias type = false)
    {c : Composite Ty} (hc : c ∈ type.parts) : c ∈ i.registered :=
  List.mem_flatMap.mpr ⟨(x, type), List.mem_filter.mpr ⟨hx, by rw [hown]; rfl⟩, hc⟩

/-- The name of a definition stands for the type that is shown for its own. -/
theorem resolve_shown (h : program.interface = .ok i) (hx : (x, type) ∈ i.definitions)
    (hown : isAlias type = false) :
    ∃ head, i.table.resolve x = .ok head ∧ head.type = i.shown type := by
  obtain ⟨hcheck, _, htyped, _, t, ht, htable⟩ := interface_eq_ok.mp h
  have hnodup : (i.definitions.map Prod.fst).Nodup := by
    rw [htyped.names]
    exact Scope.names_nodup (check_eq_ok.mp hcheck).1.names
  obtain ⟨hcompiled, hbound⟩ := tableOf_compiled (P := fun _ => True) (fun _ _ => trivial) ht
  obtain ⟨_, hext⟩ := hcompiled.registerAll (fun _ _ => trivial) htable
  -- The code of the name is that of its own type.
  obtain ⟨code, hcode⟩ := Option.isSome_iff_exists.mp (hbound _ hx)
  obtain ⟨type', hx', hcode'⟩ := hcompiled.labels x code hcode
  obtain rfl : type = type' :=
    (Prod.mk.inj (List.inj_on_of_nodup_map hnodup hx hx' rfl)).2
  have hresolve : ∀ {head}, t.typeOfCode code = .ok head → i.table.resolve x = .ok head := by
    intro head hhead
    rw [Table.resolve, hext.labels x code hcode]
    exact hext.typeOfCode hhead
  cases type with
  | prim p =>
    cases hcode'
    exact ⟨.prim p, hresolve (Table.typeOfCode_opcode p), rfl⟩
  | named y => cases hown
  | composite c =>
    obtain ⟨e, hfirst, hhead⟩ := Table.typeOfCode_of_codeOf hcode'
    refine ⟨.composite e, hresolve hhead, ?_⟩
    obtain ⟨u, hu, ht⟩ := except_bind_eq_ok.mp ht
    have halias : ∀ p ∈ i.definitions.filter (fun d => isAlias d.2), isAlias p.2 = true :=
      fun p hp => (List.mem_filter.mp hp).2
    rw [entries_bindAll halias ht] at hfirst
    have hround := firstSame?_bindAll (t := {}) (fun p _ => rfl)
      (hnodup.sublist (List.filter_sublist.map Prod.fst)) hu c
    rw [List.nil_append] at hround
    rw [shown, registered, ← hround, hfirst]
    rfl

/-- No type that differs from a type in names of fields alone was registered in front of it. -/
def KeepsNames (i : Interface) (type : Ty) : Prop :=
  ∀ c, type = .composite c → ∃ front back, i.registered = front ++ c :: back ∧
    ∀ d ∈ front, (Ty.composite d).same (.composite c) = false

theorem shown_eq (hx : (x, type) ∈ i.definitions) (hown : isAlias type = false) :
    i.shown type = type ↔ i.KeepsNames type := by
  cases type with
  | prim p => simp [shown, KeepsNames]
  | named y => cases hown
  | composite c =>
    have hmem : c ∈ i.registered :=
      mem_registered hx hown (by rw [Ty.parts_composite]; exact List.mem_cons_self)
    have hsome : (Ty.firstSame? i.registered c).isSome = true :=
      List.find?_isSome.mpr ⟨c, hmem, Ty.same_refl _⟩
    have hiff : i.shown (.composite c) = .composite c ↔ Ty.firstSame? i.registered c = some c := by
      obtain ⟨d, hd⟩ := Option.isSome_iff_exists.mp hsome
      simp [shown, hd]
    rw [hiff, Ty.firstSame?, List.find?_eq_some_iff_append]
    simp [KeepsNames, Ty.same_refl]

end Idl.Interface

/-- Rendering knows a type by what it looks through to. -/
theorem Value.json_congr {t : Table} {a b : Ty} (h : t.follow a = t.follow b) (v : Value) :
    v.json t a = v.json t b := by
  cases v with
  | opt inner => cases inner <;> rw [json, json, h]
  | _ => simp only [json, h]

namespace Idl.Interface
open Program
variable {i : Interface} {x : String} {type : Ty}

def pointType : Ty := .composite (.record [.named "x" (.prim .nat), .named "y" (.prim .nat)])

/-- The name of a definition stands for the type that is shown for its own, which is its own exactly
if no definition in front brought the same type with other names; and a message that is expected to
be of that name has the keys of the type that is shown. -/
theorem ofSource_shows {source : String} (h : ofSource source = .ok i)
    (hx : (x, type) ∈ i.definitions) (hown : isAlias type = false) :
    (∃ head, i.table.resolve x = .ok head ∧ head.type = i.shown type ∧
      (head.type = type ↔ i.KeepsNames type)) ∧
    ∀ bytes v, Message.decodeAs i.table [.named x] bytes = some (.ok [v]) →
      ∃ j, v.json i.table (i.shown type) = .ok j ∧
        Message.decodeToJsonAs i.table [.named x] bytes = some (.ok
          (Json.array [.object [("type", .string x), ("value", j)]]).pretty) := by
  obtain ⟨head, hresolve, hshown⟩ := ofSource_ensures (P := fun i => ∀ x type,
      (x, type) ∈ i.definitions → isAlias type = false →
        ∃ head, i.table.resolve x = .ok head ∧ head.type = i.shown type) h
    (fun _ _ _ hi _ _ hx hown => resolve_shown hi hx hown) x type hx hown
  refine ⟨⟨head, hresolve, hshown, by rw [hshown]; exact shown_eq hx hown⟩, fun bytes v hv => ?_⟩
  have hfollow : i.table.follow (.named x) = i.table.follow head.type := by
    rw [Table.follow, hresolve]
    cases head <;> rfl
  obtain ⟨t, args, hdecode, _, hexpect⟩ := Message.decodeAs_eq_ok hv
  have hfits := Message.fits_of_expectAll (Message.fits_of_decode hdecode) hexpect
  obtain ⟨j, hj⟩ := Value.json_of_fits (hfits (.named x, v) (List.mem_singleton_self _))
  refine ⟨j, by rw [← hshown, ← Value.json_congr hfollow]; exact hj, ?_⟩
  rw [Message.decodeToJsonAs, hv, Option.map_some]
  have htext : (Ty.named x).text = x := rfl
  simp only [bind, Except.bind, Message.toJson, List.zip_cons_cons, List.zip_nil_right,
    List.mapM_cons, List.mapM_nil, hj, htext]
  rfl

/-- A definition that keeps its names. -/
theorem ofSource_shows_point :
    ∃ i, ofSource "type Id = nat; type Point = record \x7b x: Id; y: Id \x7d;" = .ok i ∧
      ("Point", pointType) ∈ i.definitions ∧ i.KeepsNames pointType ∧
      ∃ head, i.table.resolve "Point" = .ok head ∧ head.type = pointType := by
  have hdefinitions : (ofSource
      "type Id = nat; type Point = record \x7b x: Id; y: Id \x7d;").map (·.definitions) =
        .ok [("Id", .prim .nat), ("Point", pointType)] := by cbv
  cases hsource : ofSource "type Id = nat; type Point = record \x7b x: Id; y: Id \x7d;" with
  | error e =>
    rw [hsource] at hdefinitions
    cases hdefinitions
  | ok i =>
    rw [hsource] at hdefinitions
    have hlist : i.definitions = [("Id", .prim .nat), ("Point", pointType)] :=
      Except.ok.inj hdefinitions
    have hx : ("Point", pointType) ∈ i.definitions := by
      rw [hlist]
      simp
    have hkeeps : i.KeepsNames pointType := by
      rintro c hc
      cases hc
      exact ⟨[], [], by rw [registered, hlist]; rfl, List.forall_mem_nil _⟩
    obtain ⟨head, hresolve, _, hown⟩ := (ofSource_shows hsource hx rfl).1
    exact ⟨i, rfl, hx, hkeeps, head, hresolve, hown.mpr hkeeps⟩

/-- The second definition is shown with the number that the first one gives to its field. -/
theorem ofSource_loses_names :
    ∃ i, ofSource "type Old = record \x7b 97: nat \x7d; type New = record \x7b a: nat \x7d;" = .ok i ∧
      ("New", .composite (.record [⟨97, some "a", .prim .nat⟩])) ∈ i.definitions ∧
      i.table.resolve "New" = .ok (.composite (.record [⟨97, none, .prim .nat⟩])) ∧
      Message.decodeToJsonAs i.table [.named "New"]
          [68, 73, 68, 76, 1, 108, 1, 97, 125, 1, 0, 10] =
        some (.ok "[\n  \x7b\n    \"type\": \"New\",\n    \"value\": \x7b\n      \"97\": 10\n    \x7d\n  \x7d\n]") := by
  have hparts : (ofSource
      "type Old = record \x7b 97: nat \x7d; type New = record \x7b a: nat \x7d;").map
        (fun i => (i.definitions, i.table)) = .ok
      ([("Old", .composite (.record [⟨97, none, .prim .nat⟩])),
        ("New", .composite (.record [⟨97, some "a", .prim .nat⟩]))],
       ⟨[.record [⟨97, none, .prim .nat⟩]], [("Old", 0), ("New", 0)]⟩) := by cbv
  cases hsource : ofSource
      "type Old = record \x7b 97: nat \x7d; type New = record \x7b a: nat \x7d;" with
  | error e =>
    rw [hsource] at hparts
    cases hparts
  | ok i =>
    rw [hsource] at hparts
    obtain ⟨hdefinitions, htable⟩ := Prod.mk.inj (Except.ok.inj hparts)
    refine ⟨i, rfl, ?_, ?_, ?_⟩
    · rw [hdefinitions]
      simp
    · rw [htable]
      cbv
    · rw [htable]
      cbv

end Idl.Interface

end Didl
