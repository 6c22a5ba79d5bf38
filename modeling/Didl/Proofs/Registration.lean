import Didl.Proofs.Tables

namespace Didl.Table
variable {t u : Table}

/-- An entry that was found stays the first one of its kind, whatever comes after it. -/
theorem Extends.indexOf? (h : t.Extends u) {c : Composite Ty} {i : Nat}
    (hi : t.indexOf? c = some i) : u.indexOf? c = some i := by
  obtain ⟨hlt, he, hnot⟩ := List.findIdx?_eq_some_iff_getElem.mp hi
  have hget : ∀ (j : Nat) (hj : j < t.entries.length), u.entries[j]? = some t.entries[j] :=
    fun j hj => h.entries j _ (List.getElem?_eq_getElem hj)
  refine List.findIdx?_eq_some_iff_getElem.mpr ?_
  obtain ⟨hlt', hi'⟩ := List.getElem?_eq_some_iff.mp (hget i hlt)
  refine ⟨hlt', by rw [hi']; exact he, ?_⟩
  intro j hj
  obtain ⟨_, hj'⟩ := List.getElem?_eq_some_iff.mp (hget j (by omega))
  rw [hj']
  exact hnot j hj

theorem Extends.codeOf (h : t.Extends u) {type : Ty} {code : Int}
    (hc : t.codeOf type = .ok code) : u.codeOf type = .ok code := by
  cases type with
  | prim p => exact hc
  | named x =>
    simp only [Table.codeOf] at hc ⊢
    split at hc
    · rename_i code' hcode
      simpa only [h.labels x code' hcode] using hc
    · cases hc
  | composite c =>
    simp only [Table.codeOf] at hc ⊢
    split at hc
    · rename_i i hi
      simpa only [h.indexOf? hi] using hc
    · cases hc

theorem indexOf?_append (entries : List (Composite Ty)) (c d : Composite Ty) :
    (Table.mk (entries ++ [d]) []).indexOf? c = ((Table.mk entries []).indexOf? c).or
      (if (Ty.composite d).same (.composite c) = true then some entries.length else none) := by
  rw [indexOf?, List.findIdx?_append, List.findIdx?_cons, List.findIdx?_nil]
  by_cases h : (Ty.composite d).same (.composite c) = true <;> simp [h, indexOf?]

theorem add_labels (t : Table) (c : Composite Ty) : (t.add c).labels = t.labels := by
  unfold add
  split <;> rfl

theorem add_extends (t : Table) (c : Composite Ty) : t.Extends (t.add c) := by
  refine ⟨?_, fun x code hx => by simpa only [labelCode?, add_labels] using hx⟩
  intro i e he
  unfold add
  split
  · exact he
  · exact (List.getElem?_append_left (List.getElem?_eq_some_iff.mp he).1).trans he

theorem mem_add {c e : Composite Ty} (h : e ∈ (t.add c).entries) : e ∈ t.entries ∨ e = c := by
  unfold add at h
  split at h
  · exact .inl h
  · simpa using h

theorem add_indexOf? (t : Table) (c : Composite Ty) : ∃ i, (t.add c).indexOf? c = some i := by
  unfold add
  split
  · rename_i i hi
    exact ⟨i, hi⟩
  · apply Option.isSome_iff_exists.mp
    simp [indexOf?, Ty.same_refl]

theorem add_of_indexOf? {c : Composite Ty} {i : Nat} (h : t.indexOf? c = some i) :
    t.add c = t := by
  rw [add, h]

theorem addAll_of_indexOf? {cs : List (Composite Ty)}
    (h : ∀ c ∈ cs, ∃ i, t.indexOf? c = some i) : cs.foldl add t = t := by
  induction cs with
  | nil => rfl
  | cons c cs ih =>
    obtain ⟨i, hi⟩ := h c List.mem_cons_self
    rw [List.foldl_cons, add_of_indexOf? hi, ih fun d hd => h d (List.mem_cons_of_mem _ hd)]

theorem addAll_labels (t : Table) (cs : List (Composite Ty)) :
    (cs.foldl add t).labels = t.labels := by
  induction cs generalizing t with
  | nil => rfl
  | cons c cs ih => rw [List.foldl_cons, ih, add_labels]

theorem addAll_extends (t : Table) (cs : List (Composite Ty)) : t.Extends (cs.foldl add t) := by
  induction cs generalizing t with
  | nil => exact .refl t
  | cons c cs ih => exact (add_extends t c).trans (ih (t.add c))

theorem mem_addAll {cs : List (Composite Ty)} {e : Composite Ty}
    (h : e ∈ (cs.foldl add t).entries) : e ∈ t.entries ∨ e ∈ cs := by
  induction cs generalizing t with
  | nil => exact .inl h
  | cons c cs ih =>
    rcases ih h with he | he
    · rcases mem_add he with he | rfl
      · exact .inl he
      · exact .inr List.mem_cons_self
    · exact .inr (List.mem_cons_of_mem _ he)

/-- What registering a type does: nothing is lost, only constructed types that occur in it are
added, and the code is the one under which it is found from then on. -/
structure Registered (t : Table) (type : Ty) (code : Int) (u : Table) : Prop where
  extended : t.Extends u
  labels : u.labels = t.labels
  parts : ∀ e ∈ u.entries, e ∈ t.entries ∨ e ∈ type.parts
  found : u.codeOf type = .ok code

theorem register_eq_ok {type : Ty} {code : Int} (h : t.register type = .ok (code, u)) :
    t.Registered type code u := by
  unfold register at h
  dsimp only at h
  split at h
  · rename_i code' hcode
    cases h
    exact ⟨addAll_extends t _, addAll_labels t _, fun e he => mem_addAll he, hcode⟩
  · cases h

/-- Registering a type that is not a name cannot fail. -/
theorem register_head (t : Table) (head : Head) : ∃ code u, t.register head.type = .ok (code, u) := by
  have hcode : ∃ code, (head.type.parts.foldl add t).codeOf head.type = .ok code := by
    cases head with
    | prim p => exact ⟨p.opcode, rfl⟩
    | composite c =>
      rw [Head.type, Ty.parts_composite, List.foldl_cons]
      obtain ⟨i, hi⟩ := add_indexOf? t c
      have hi' := (addAll_extends (t.add c) (c.members.flatMap Ty.parts)).indexOf? hi
      exact ⟨i, by simp only [codeOf, hi']⟩
  obtain ⟨code, hcode⟩ := hcode
  exact ⟨code, head.type.parts.foldl add t, by simp only [register, hcode]⟩

/-- What binding a name does: the name was bound before and nothing changes, or its type is
registered and the name is bound to its code. -/
theorem registerLabel_eq_ok {name : String} {type : Ty} {code : Int}
    (h : t.registerLabel name type = .ok (code, u)) :
    (t.labelCode? name = some code ∧ u = t) ∨
      t.labelCode? name = none ∧ ∃ v, t.Registered type code v ∧
        u = { v with labels := v.labels ++ [(name, code)] } := by
  unfold registerLabel at h
  split at h
  · rename_i code' hcode
    cases h
    exact .inl ⟨hcode, rfl⟩
  · rename_i hnone
    split at h
    · rename_i code' v hreg
      cases h
      exact .inr ⟨hnone, v, register_eq_ok hreg, rfl⟩
    · cases h

theorem bind_extends {name : String} {code : Int} :
    t.Extends { t with labels := t.labels ++ [(name, code)] } := by
  refine ⟨fun _ _ he => he, ?_⟩
  intro x code' hx
  simp only [labelCode?, List.lookup_append] at hx ⊢
  rw [hx]
  rfl

theorem labelCode?_bind {name : String} {code : Int} (hn : t.labelCode? name = none) (x : String) :
    Table.labelCode? { t with labels := t.labels ++ [(name, code)] } x =
      if x = name then some code else t.labelCode? x := by
  simp only [labelCode?, List.lookup_append] at hn ⊢
  split
  · rename_i hx
    subst hx
    simp [hn, List.lookup]
  · rename_i hx
    have : (x == name) = false := by simpa using hx
    simp [List.lookup, this]

theorem Registered.sound {type : Ty} {code : Int} (h : t.Registered type code u) (hs : t.Sound) :
    u.Sound := by
  intro x code' hx
  simp only [labelCode?, h.labels] at hx
  obtain ⟨head, hhead⟩ := hs x code' hx
  exact ⟨head, h.extended.typeOfCode hhead⟩

theorem registerLabel_extends {name : String} {type : Ty} {code : Int}
    (h : t.registerLabel name type = .ok (code, u)) : t.Extends u := by
  rcases registerLabel_eq_ok h with ⟨_, rfl⟩ | ⟨_, v, hv, rfl⟩
  · exact .refl u
  · exact hv.extended.trans bind_extends

theorem registerLabel_bound {name : String} {type : Ty} {code : Int}
    (h : t.registerLabel name type = .ok (code, u)) : u.labelCode? name = some code := by
  rcases registerLabel_eq_ok h with ⟨hcode, rfl⟩ | ⟨hn, v, hv, rfl⟩
  · exact hcode
  · have hn' : v.labelCode? name = none := by simpa only [labelCode?, hv.labels] using hn
    rw [labelCode?_bind hn', if_pos rfl]

theorem registerLabel_sound {name : String} {type : Ty} {code : Int}
    (h : t.registerLabel name type = .ok (code, u)) (hs : t.Sound) : u.Sound := by
  rcases registerLabel_eq_ok h with ⟨_, rfl⟩ | ⟨hn, v, hv, rfl⟩
  · exact hs
  · have hvs := hv.sound hs
    have hn' : v.labelCode? name = none := by simpa only [labelCode?, hv.labels] using hn
    intro x code' hx
    rw [labelCode?_bind hn'] at hx
    split at hx
    · cases hx
      obtain ⟨_, head, _, hhead, _⟩ := codeOf_stands hvs hv.found
      exact ⟨head, hhead⟩
    · exact hvs x code' hx

/-- The tables that come from an empty one by registering types and binding names. -/
inductive Built : Table → Prop
  | empty : Built {}
  | register {t u : Table} {type : Ty} {code : Int} :
      Built t → t.register type = .ok (code, u) → Built u
  | registerLabel {t u : Table} {name : String} {type : Ty} {code : Int} :
      Built t → t.registerLabel name type = .ok (code, u) → Built u

theorem Built.sound (h : t.Built) : t.Sound := by
  induction h with
  | empty => intro x code hx; simp [labelCode?, List.lookup] at hx
  | register _ hreg ih => exact (register_eq_ok hreg).sound ih
  | registerLabel _ hreg ih => exact registerLabel_sound hreg ih

/-- Copying names is binding them one by one. -/
theorem Built.copyLabels (h : u.Built) (type : Ty) : (t.copyLabels type u).2.Built := by
  have hfold : ∀ (found : List (String × Head)) (u : Table), u.Built →
      (found.foldl copyLabels.bind u).Built := by
    intro found
    induction found with
    | nil => exact fun _ h => h
    | cons p found ih =>
      intro u hu
      apply ih _
      unfold copyLabels.bind
      dsimp only
      split
      · rename_i hreg
        exact .registerLabel hu hreg
      · exact hu
  exact hfold _ u h

end Didl.Table
