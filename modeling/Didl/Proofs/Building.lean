import Didl.Proofs.Copying

namespace Didl.Table
variable {t u : Table} {types : List Ty}

inductive Call where
  | register (type : Ty)
  | registerLabel (name : String) (type : Ty)
  | copyLabels (source : Table) (type : Ty)

namespace Call

/-- Takes the call. What it added before a fault stays. -/
def run : Call → Step Table (Option Int)
  | register type => fun t =>
    match t.register type with
    | .ok (code, u) => (.ok (some code), u)
    | .error e => (.error e, type.parts.foldl add t)
  | registerLabel name type => fun t =>
    match t.registerLabel name type with
    | .ok (code, u) => (.ok (some code), u)
    | .error e => (.error e, type.parts.foldl add t)
  | copyLabels source type => fun t =>
    match source.copyLabels type t with
    | (none, u) => (.ok none, u)
    | (some e, u) => (.error e, u)

def newTypes (t : Table) : List (String × Head) → List Ty
  | [] => []
  | (name, head) :: found =>
    (if t.isBound name then [] else [head.type]) ++ newTypes (copyLabels.bind t (name, head)) found

def registers (t : Table) : Call → List Ty
  | register type => [type]
  | registerLabel name type => if t.isBound name then [] else [type]
  | copyLabels source type => newTypes t (source.dependencies type).1

def runAll (calls : List Call) (t : Table) : Table := calls.foldl (fun t call => (call.run t).2) t

/-- The types that were registered in a run. -/
def registered : List Call → Table → List Ty
  | [], _ => []
  | call :: calls, t => call.registers t ++ registered calls (call.run t).2

end Call

theorem add_distinct {c : Composite Ty}
    (h : t.entries.Pairwise fun c d => (Ty.composite c).same (.composite d) = false) :
    (t.add c).entries.Pairwise fun c d => (Ty.composite c).same (.composite d) = false := by
  unfold add
  split
  · exact h
  · rename_i hnone
    have hnew := List.findIdx?_eq_none_iff.mp hnone
    exact List.pairwise_append.mpr ⟨h, List.pairwise_singleton _ _, by simpa using hnew⟩

theorem addAll_distinct {cs : List (Composite Ty)}
    (h : t.entries.Pairwise fun c d => (Ty.composite c).same (.composite d) = false) :
    (cs.foldl add t).entries.Pairwise fun c d => (Ty.composite c).same (.composite d) = false := by
  induction cs generalizing t with
  | nil => exact h
  | cons c cs ih => exact ih (add_distinct h)

theorem addAll_indexOf? {cs : List (Composite Ty)} {c : Composite Ty} (hc : c ∈ cs) :
    ∃ i, (cs.foldl add t).indexOf? c = some i := by
  induction cs generalizing t with
  | nil => cases hc
  | cons d cs ih =>
    rcases List.mem_cons.mp hc with rfl | hc
    · obtain ⟨i, hi⟩ := add_indexOf? t c
      exact ⟨i, (addAll_extends (t.add c) cs).indexOf? hi⟩
    · exact ih hc

/-- The entries are the constructed types that occur in some types, each once, and every name
stands for one of them or for a primitive. -/
structure Exact (t : Table) (types : List Ty) : Prop where
  distinct : t.entries.Pairwise fun c d => (Ty.composite c).same (.composite d) = false
  covered : ∀ c ∈ t.entries, ∃ type ∈ types, c ∈ type.parts
  complete : ∀ type ∈ types, ∀ c ∈ type.parts, ∃ i, t.indexOf? c = some i
  sound : t.Sound

namespace Exact

theorem empty : Exact {} [] := by
  refine ⟨.nil, nofun, nofun, fun x code hx => ?_⟩
  simp [labelCode?] at hx

/-- Adding all that occurs in a type keeps the table exact, now also for that type. -/
theorem addAll (h : t.Exact types) (type : Ty) : (type.parts.foldl add t).Exact (types ++ [type]) := by
  have hextends := addAll_extends t type.parts
  refine ⟨addAll_distinct h.distinct, fun c hc => ?_, fun type' htype' c hc => ?_, ?_⟩
  · rcases mem_addAll hc with hc | hc
    · obtain ⟨type', htype', hpart⟩ := h.covered c hc
      exact ⟨type', List.mem_append_left _ htype', hpart⟩
    · exact ⟨type, List.mem_append_right _ (List.mem_singleton_self _), hc⟩
  · rcases List.mem_append.mp htype' with htype' | htype'
    · obtain ⟨i, hi⟩ := h.complete type' htype' c hc
      exact ⟨i, hextends.indexOf? hi⟩
    · rw [List.mem_singleton.mp htype'] at hc
      exact addAll_indexOf? hc
  · intro x code hx
    rw [labelCode?, addAll_labels] at hx
    obtain ⟨head, hhead⟩ := h.sound x code hx
    exact ⟨head, hextends.typeOfCode hhead⟩

/-- A name that is bound to the code of a type changes no entry. -/
theorem bind (h : t.Exact types) {name : String} {type : Ty} {code : Int}
    (hnone : t.labelCode? name = none) (hcode : t.codeOf type = .ok code) :
    Exact { t with labels := t.labels ++ [(name, code)] } types := by
  refine ⟨h.distinct, h.covered, h.complete, fun x code' hx => ?_⟩
  rw [labelCode?_bind hnone] at hx
  split at hx
  · cases hx
    obtain ⟨_, head, _, hhead, _⟩ := codeOf_stands h.sound hcode
    exact ⟨head, hhead⟩
  · exact h.sound x code' hx

end Exact

theorem register_eq (t : Table) (type : Ty) {code : Int} (h : t.register type = .ok (code, u)) :
    u = type.parts.foldl add t ∧ u.codeOf type = .ok code := by
  unfold register at h
  dsimp only at h
  split at h
  · cases h
    exact ⟨rfl, ‹_›⟩
  · cases h

/-- Registering fails for a name that is not bound, and for nothing else. -/
theorem register_eq_error {type : Ty} {e : Fault} :
    t.register type = .error e ↔
      ∃ x, type = .named x ∧ t.labelCode? x = none ∧ e = .unboundName x := by
  constructor
  · intro h
    have hhead : ∀ head : Head, type ≠ head.type := by
      rintro head rfl
      obtain ⟨code, u, hu⟩ := register_head t head
      rw [hu] at h
      cases h
    cases type with
    | prim p => exact absurd rfl (hhead (.prim p))
    | composite c => exact absurd rfl (hhead (.composite c))
    | named x =>
      simp only [register, Ty.parts, Ty.fold, List.foldl_nil, codeOf] at h
      cases hx : t.labelCode? x with
      | some code =>
        rw [hx] at h
        cases h
      | none =>
        rw [hx] at h
        cases h
        exact ⟨x, rfl, hx, rfl⟩
  · rintro ⟨x, rfl, hx, rfl⟩
    simp only [register, Ty.parts, Ty.fold, List.foldl_nil, codeOf, hx]

theorem registerLabel_eq_error {name : String} {type : Ty} {e : Fault} :
    t.registerLabel name type = .error e ↔
      t.labelCode? name = none ∧ t.register type = .error e := by
  unfold registerLabel
  cases t.labelCode? name <;> cases t.register type <;> simp

/-- A type has a code once it is registered, if it is no name that is not bound. -/
theorem register_returns {type : Ty} (h : ∀ x, type = .named x → t.isBound x = true) :
    ∃ code u, t.register type = .ok (code, u) := by
  cases hreg : t.register type with
  | ok r => exact ⟨r.1, r.2, rfl⟩
  | error e =>
    obtain ⟨x, hx, hnone, _⟩ := register_eq_error.mp hreg
    have hbound := h x hx
    rw [isBound, hnone] at hbound
    cases hbound

theorem registerLabel_returns {name : String} {type : Ty}
    (h : ∀ x, type = .named x → t.isBound x = true) :
    ∃ code u, t.registerLabel name type = .ok (code, u) := by
  cases hreg : t.registerLabel name type with
  | ok r => exact ⟨r.1, r.2, rfl⟩
  | error e =>
    obtain ⟨code, u, hok⟩ := register_returns h
    rw [(registerLabel_eq_error.mp hreg).2] at hok
    cases hok

theorem addAll_of_register_error {type : Ty} {e : Fault} (h : t.register type = .error e) :
    type.parts.foldl add t = t := by
  obtain ⟨x, rfl, _, _⟩ := register_eq_error.mp h
  rfl

/-- A name that is bound registers nothing; one that is not bound registers its type. -/
theorem Exact.registerLabel (h : t.Exact types) {name : String} {type : Ty} {code : Int}
    (hreg : t.registerLabel name type = .ok (code, u)) :
    u.Exact (types ++ if t.isBound name then [] else [type]) := by
  unfold Table.registerLabel at hreg
  split at hreg
  · rename_i code' hcode
    cases hreg
    simpa [isBound, hcode] using h
  · rename_i hnone
    split at hreg
    · rename_i code' v hv
      cases hreg
      obtain ⟨rfl, hcode⟩ := register_eq t type hv
      have hnone' : (type.parts.foldl add t).labelCode? name = none := by
        rwa [labelCode?, addAll_labels]
      simpa [isBound, hnone] using (h.addAll type).bind hnone' hcode
    · cases hreg

theorem Exact.bindAll (h : t.Exact types) (found : List (String × Head)) :
    (found.foldl copyLabels.bind t).Exact (types ++ Call.newTypes t found) := by
  induction found generalizing t types with
  | nil => simpa [Call.newTypes] using h
  | cons p found ih =>
    obtain ⟨name, head⟩ := p
    obtain ⟨code, hreg⟩ := bind_head t name head
    have hfirst := h.registerLabel hreg
    simpa [Call.newTypes] using ih hfirst

namespace Call

@[simp]
theorem run_register (t : Table) (type : Ty) :
    ((register type).run t).2 = type.parts.foldl add t := by
  simp only [run]
  split
  · exact (register_eq t type ‹_›).1
  · rfl

theorem run_registerLabel (t : Table) (name : String) (type : Ty) :
    (∃ code, t.registerLabel name type = .ok (code, ((registerLabel name type).run t).2)) ∨
      (∃ e, t.registerLabel name type = .error e) ∧
        ((registerLabel name type).run t).2 = type.parts.foldl add t := by
  simp only [run]
  cases hreg : t.registerLabel name type with
  | ok r => exact .inl ⟨r.1, rfl⟩
  | error e => exact .inr ⟨⟨e, rfl⟩, rfl⟩

@[simp]
theorem run_copyLabels (t source : Table) (type : Ty) :
    ((copyLabels source type).run t).2 =
      (source.dependencies type).1.foldl copyLabels.bind t := by
  simp only [run, Table.copyLabels]
  split <;> exact (Prod.mk.inj ‹_›).2.symm

/-- One call keeps the table exact for what was registered so far, whether or not it fails. -/
theorem run_exact (h : t.Exact types) (call : Call) :
    (call.run t).2.Exact (types ++ call.registers t) := by
  cases call with
  | register type => simpa [registers] using h.addAll type
  | copyLabels source type => simpa [registers] using h.bindAll (source.dependencies type).1
  | registerLabel name type =>
    rcases run_registerLabel t name type with ⟨code, hok⟩ | ⟨⟨e, herror⟩, hrun⟩
    · exact h.registerLabel hok
    · obtain ⟨hnone, _⟩ := registerLabel_eq_error.mp herror
      simpa [registers, isBound, hnone, hrun] using h.addAll type

theorem runAll_exact (h : t.Exact types) (calls : List Call) :
    (runAll calls t).Exact (types ++ registered calls t) := by
  induction calls generalizing t types with
  | nil => simpa [runAll, registered] using h
  | cons call calls ih => simpa [runAll, registered] using ih (run_exact h call)

/-- A call takes nothing from the table and gives no code another meaning. -/
theorem run_extends (hs : t.Sound) (call : Call) : t.Extends (call.run t).2 := by
  cases call with
  | register type => simpa using addAll_extends t type.parts
  | copyLabels source type => simpa using (gains_foldl hs (source.dependencies type).1).extended
  | registerLabel name type =>
    rcases run_registerLabel t name type with ⟨code, hok⟩ | ⟨_, hrun⟩
    · exact registerLabel_extends hok
    · rw [hrun]
      exact addAll_extends t type.parts

theorem runAll_extends (h : t.Exact types) (calls : List Call) : t.Extends (runAll calls t) := by
  induction calls generalizing t types with
  | nil => exact .refl t
  | cons call calls ih => exact (run_extends h.sound call).trans (ih (run_exact h call))

end Call

namespace Exact

/-- An entry is found under its own index. -/
theorem codeOf_entry (h : t.Exact types) {i : Nat} {c : Composite Ty} (hc : t.entries[i]? = some c) :
    t.codeOf (.composite c) = .ok i := by
  obtain ⟨hi, rfl⟩ := List.getElem?_eq_some_iff.mp hc
  have hindex : t.indexOf? t.entries[i] = some i := by
    apply List.findIdx?_eq_some_iff_getElem.mpr
    refine ⟨hi, Ty.same_refl _, fun j hj => ?_⟩
    simpa using List.pairwise_iff_getElem.mp h.distinct j i (by omega) hi hj
  simp only [codeOf, hindex]

/-- A name is bound to the opcode of a primitive or to the index of an entry. -/
theorem label_code (h : t.Exact types) {x : String} {code : Int} (hx : t.labelCode? x = some code) :
    (∃ p : Prim, code = p.opcode) ∨ ∃ i < t.size, code = (i : Int) := by
  obtain ⟨head, hhead⟩ := h.sound x code hx
  rcases typeOfCode_eq_ok hhead with ⟨p, hp, _, _⟩ | ⟨i, e, rfl, he, _⟩
  · have hopcode : p.opcode = code := by simpa using List.find?_some hp
    exact .inl ⟨p, hopcode.symm⟩
  · exact .inr ⟨i, (List.getElem?_eq_some_iff.mp he).1, rfl⟩

/-- The code of a type stands for it, and for the same from then on. -/
theorem code_lasts (h : t.Exact types) {type : Ty} {code : Int} (hcode : t.codeOf type = .ok code) :
    ∃ head head', t.follow type = .ok head ∧ head.type.same head'.type = true ∧
      ∀ more, (Call.runAll more t).typeOfCode code = .ok head' := by
  obtain ⟨head, head', hfollow, hhead', hsame⟩ := codeOf_stands h.sound hcode
  exact ⟨head, head', hfollow, hsame, fun more => (Call.runAll_extends h more).typeOfCode hhead'⟩

end Exact

section Walk

/-- Enters a type the way a table is filled: what is found is not looked into again, and what is
new is appended before its members are entered. -/
def enter (type : Ty) : Table → Table :=
  type.fold (fun _ t => t) (fun _ t => t) fun c t =>
    match t.indexOf? (c.map Prod.fst) with
    | some _ => t
    | none => c.members.foldl (fun u m => m.2 u) { t with entries := t.entries ++ [c.map Prod.fst] }

theorem enter_composite (c : Composite Ty) (t : Table) :
    enter (.composite c) t =
      match t.indexOf? c with
      | some _ => t
      | none => c.members.foldl (fun u m => enter m u) { t with entries := t.entries ++ [c] } := by
  rw [enter, Ty.fold_composite, Ty.map_fst, Composite.members_map, List.foldl_map]
  rfl

/-- All that occurs in an entry of at most a given size is there. While a type is being entered
this fails for the types around it, which are larger. -/
def Whole (t : Table) (size : Nat) : Prop :=
  ∀ e ∈ t.entries, (Ty.composite e).size ≤ size → ∀ c ∈ (Ty.composite e).parts,
    ∃ i, t.indexOf? c = some i

theorem Whole.addAll {size : Nat} (h : t.Whole size) (type : Ty) :
    (type.parts.foldl add t).Whole size := by
  intro e he hsize c hc
  rcases mem_addAll he with he | he
  · obtain ⟨i, hi⟩ := h e he hsize c hc
    exact ⟨i, (addAll_extends t type.parts).indexOf? hi⟩
  · exact addAll_indexOf? (Ty.parts_subset he hc)

theorem Whole.mono {m n : Nat} (h : t.Whole n) (hle : m ≤ n) : t.Whole m :=
  fun e he hsize => h e he (Nat.le_trans hsize hle)

/-- An entry that is found was entered with all that occurs in it, so that nothing is left out when
it is not looked into. -/
theorem enter_eq {type : Ty} (h : t.Whole type.size) : enter type t = type.parts.foldl add t := by
  induction type using Ty.induct generalizing t with
  | prim | named => rfl
  | composite c ih =>
    rw [enter_composite]
    cases hindex : t.indexOf? c with
    | some i =>
      obtain ⟨e, he, hsame⟩ := indexOf?_eq_some hindex
      have hwhole := h e (List.mem_of_getElem? he) (Nat.le_of_eq (Ty.size_of_same hsame))
      refine (addAll_of_indexOf? fun d hd => ?_).symm
      obtain ⟨d', hd', hsame'⟩ := Ty.parts_of_same (Ty.same_symm hsame) hd
      rw [← indexOf?_congr hsame']
      exact hwhole d' hd'
    | none =>
      have hadd : t.add c = { t with entries := t.entries ++ [c] } := by rw [add, hindex]
      have hstart : (t.add c).Whole ((Ty.composite c).size - 1) := by
        intro e he hsize d hd
        rcases mem_add he with he | rfl
        · obtain ⟨i, hi⟩ := h e he (by omega) d hd
          exact ⟨i, (add_extends t c).indexOf? hi⟩
        · have hpos : 0 < (Ty.composite e).size := by rw [Ty.size_composite]; omega
          omega
      -- The members are smaller than the type, which is whole once they have all been entered.
      have hmembers : ∀ ms ⊆ c.members, ∀ u : Table, u.Whole ((Ty.composite c).size - 1) →
          ms.foldl (fun u m => enter m u) u = (ms.flatMap Ty.parts).foldl add u := by
        intro ms hms
        induction ms with
        | nil => exact fun _ _ => rfl
        | cons m ms ihs =>
          intro u hu
          have hm : m ∈ c.members := hms List.mem_cons_self
          have hlt := Ty.size_lt_of_member hm
          rw [List.foldl_cons, ih m hm (hu.mono (by omega)), List.flatMap_cons, List.foldl_append]
          exact ihs (fun x hx => hms (List.mem_cons_of_mem _ hx)) _ (hu.addAll m)
      rw [Ty.parts_composite, List.foldl_cons, ← hmembers _ (List.Subset.refl _) _ hstart, hadd]

theorem Exact.whole (h : t.Exact types) (size : Nat) : t.Whole size := by
  intro e he _ c hc
  obtain ⟨type, htype, hpart⟩ := h.covered e he
  exact h.complete type htype c (Ty.parts_subset hpart hc)

/-- Registering a type enters it. -/
theorem Exact.run_register (h : t.Exact types) (type : Ty) :
    ((Call.register type).run t).2 = enter type t := by
  rw [Call.run_register, enter_eq (h.whole _)]

end Walk

open Call in
/-- After any calls, some of which may have failed, the entries are the constructed types that occur
in what was registered, each once and under its own index, one step looks through a name, and a name
is bound to a code that there is. From then on no entry is moved, no name is bound anew, and a code
that was returned goes on to stand for the type that it was returned for. Registering a type enters it
with its members, without a look into those that are found. Only a name that is not bound cannot be
registered, and the attempt changes nothing. -/
theorem building_invariant (calls : List Call) :
    let t := runAll calls {}
    t.Exact (registered calls {}) ∧
    (∀ (i : Nat) c, t.entries[i]? = some c → t.codeOf (.composite c) = .ok (i : Int)) ∧
    (∀ type head, t.follow type = .ok head → t.follow head.type = .ok head) ∧
    (∀ x code, t.labelCode? x = some code →
      (∃ p : Prim, code = p.opcode) ∨ ∃ i < t.size, code = (i : Int)) ∧
    (∀ more, t.Extends (runAll more t)) ∧
    (∀ type, ((Call.register type).run t).2 = enter type t) ∧
    (∀ type code u, t.register type = .ok (code, u) →
      ∃ head head', u.follow type = .ok head ∧ head.type.same head'.type = true ∧
        ∀ more, (runAll more u).typeOfCode code = .ok head') ∧
    (∀ name type code u, t.registerLabel name type = .ok (code, u) →
      (∀ more, (runAll more u).labelCode? name = some code) ∧
      (t.labelCode? name = some code ∨ u.codeOf type = .ok code) ∧
      ∃ head, u.follow (.named name) = .ok head ∧
        ∀ more, (runAll more u).typeOfCode code = .ok head) ∧
    (∀ type e, t.register type = .error e →
      (∃ x, type = .named x ∧ t.labelCode? x = none) ∧ ((Call.register type).run t).2 = t) ∧
    (∀ name type e, t.registerLabel name type = .error e →
      (∃ x, type = .named x ∧ t.labelCode? x = none) ∧ ((Call.registerLabel name type).run t).2 = t) := by
  intro t
  have ht : t.Exact (registered calls {}) := by simpa using runAll_exact .empty calls
  refine ⟨ht, fun i c => ht.codeOf_entry, fun type head _ => follow_type t head,
    fun x code => ht.label_code, runAll_extends ht, ht.run_register, ?_, ?_, ?_, ?_⟩
  · intro type code u hreg
    obtain ⟨rfl, hcode⟩ := register_eq t type hreg
    exact (ht.addAll type).code_lasts hcode
  · intro name type code u hreg
    have hu := ht.registerLabel hreg
    have hbound := registerLabel_bound hreg
    obtain ⟨head, hhead⟩ := hu.sound name code hbound
    refine ⟨fun more => (runAll_extends hu more).labels name code hbound, ?_, head, ?_,
      fun more => (runAll_extends hu more).typeOfCode hhead⟩
    · rcases registerLabel_eq_ok hreg with ⟨hcode, _⟩ | ⟨_, v, hv, rfl⟩
      · exact .inl hcode
      · exact .inr (bind_extends.codeOf hv.found)
    · simp only [follow, Table.resolve, hbound, hhead]
  · intro type e herror
    obtain ⟨x, htype, hx, _⟩ := register_eq_error.mp herror
    exact ⟨⟨x, htype, hx⟩, by rw [Call.run_register, addAll_of_register_error herror]⟩
  · intro name type e herror
    obtain ⟨_, hregister⟩ := registerLabel_eq_error.mp herror
    obtain ⟨x, htype, hx, _⟩ := register_eq_error.mp hregister
    refine ⟨⟨x, htype, hx⟩, ?_⟩
    rcases run_registerLabel t name type with ⟨code, hok⟩ | ⟨_, hrun⟩
    · rw [herror] at hok
      cases hok
    · rw [hrun, addAll_of_register_error hregister]

end Didl.Table
