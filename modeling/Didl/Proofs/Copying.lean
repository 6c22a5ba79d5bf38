import Didl.Message
import Didl.Proofs.Registration

namespace Didl.Table

section Search
variable {t : Table}

theorem reach_of_names {type : Ty} {x : String} (h : x ∈ type.names) : t.Reach type (.named x) := by
  induction type using Ty.induct with
  | prim p => simp [Ty.names, Ty.fold] at h
  | named y =>
    obtain rfl : x = y := by simpa [Ty.names, Ty.fold] using h
    exact .refl
  | composite c ih =>
    rw [Ty.names_composite] at h
    obtain ⟨m, hm, hx⟩ := List.mem_flatMap.mp h
    exact .trans (.member .refl (former_composite t c) hm) (ih m hm hx)

/-- Every constructed type that occurs in a type is what some type shows that it leads to. -/
theorem reach_of_parts {type : Ty} {c : Composite Ty} (h : c ∈ type.parts) :
    ∃ u, t.Reach type u ∧ t.former u = some (.composite c) := by
  induction type using Ty.induct with
  | prim p => simp [Ty.parts, Ty.fold] at h
  | named y => simp [Ty.parts, Ty.fold] at h
  | composite d ih =>
    rw [Ty.parts_composite] at h
    rcases List.mem_cons.mp h with rfl | h
    · exact ⟨_, .refl, former_composite t c⟩
    · obtain ⟨m, hm, hc⟩ := List.mem_flatMap.mp h
      obtain ⟨u, hu, hf⟩ := ih m hm hc
      exact ⟨u, .trans (.member .refl (former_composite t d) hm) hu, hf⟩

/-- What a name is bound to leads no further than the name. -/
theorem reach_of_resolve {x : String} {head : Head} (h : t.resolve x = .ok head) :
    (∀ y ∈ head.type.names, t.Reach (.named x) (.named y)) ∧
      ∀ c ∈ head.type.parts, ∃ u, t.Reach (.named x) u ∧ t.former u = some (.composite c) := by
  have hf : t.former (.named x) = some head.former := former_eq_some.mpr ⟨head, h, rfl⟩
  cases head with
  | prim p => exact ⟨by simp [Head.type, Ty.names, Ty.fold], by simp [Head.type, Ty.parts, Ty.fold]⟩
  | composite d =>
    have hstep : ∀ m ∈ d.members, t.Reach (.named x) m := fun m hm => .member .refl hf hm
    constructor
    · intro y hy
      rw [Head.type, Ty.names_composite] at hy
      obtain ⟨m, hm, hy⟩ := List.mem_flatMap.mp hy
      exact (hstep m hm).trans (reach_of_names hy)
    · intro c hc
      rw [Head.type, Ty.parts_composite] at hc
      rcases List.mem_cons.mp hc with rfl | hc
      · exact ⟨_, .refl, hf⟩
      · obtain ⟨m, hm, hc⟩ := List.mem_flatMap.mp hc
        obtain ⟨u, hu, hf⟩ := reach_of_parts hc
        exact ⟨u, (hstep m hm).trans hu, hf⟩

/-- The search leads only to names that it was to lead to. -/
theorem visit_reach {fresh : List (String × Int)} {pending : List String} {p : String × Head}
    (h : p ∈ (visit t fresh pending).1) :
    ∃ x ∈ pending, t.Reach (.named x) (.named p.1) ∧ t.resolve p.1 = .ok p.2 := by
  fun_induction visit t fresh pending with
  | case1 => cases h
  | case2 => cases h
  | case3 => cases h
  | case4 fresh name rest code hcode hany head hhead found fault hvisit ih =>
    have hresolve : t.resolve name = .ok head := by simp only [Table.resolve, hcode, hhead]
    rcases List.mem_cons.mp h with rfl | h
    · exact ⟨name, List.mem_cons_self, .refl, hresolve⟩
    · rw [hvisit] at ih
      obtain ⟨x, hx, hreach, hp⟩ := ih h
      rcases List.mem_append.mp hx with hx | hx
      · have hname := (reach_of_resolve hresolve).1 x (List.mem_reverse.mp hx)
        exact ⟨name, List.mem_cons_self, hname.trans hreach, hp⟩
      · exact ⟨x, List.mem_cons_of_mem _ hx, hreach, hp⟩
  | case5 fresh name rest code hcode hany ih =>
    obtain ⟨x, hx, hreach, hp⟩ := ih h
    exact ⟨x, List.mem_cons_of_mem _ hx, hreach, hp⟩

/-- A name that the search has gone by: it is bound, and was visited, now or before. -/
def Met (t : Table) (fresh : List (String × Int)) (found : List (String × Head)) (x : String) : Prop :=
  t.isBound x = true ∧ (x ∈ found.map Prod.fst ∨ fresh.any (·.1 == x) = false)

/-- A search that comes to its end has gone by every name that it was to go by, and by every name
that these led it to. -/
theorem visit_met {fresh : List (String × Int)} {pending : List String}
    {found : List (String × Head)} (h : visit t fresh pending = (found, none)) :
    (∀ x ∈ pending, t.Met fresh found x) ∧ ∀ p ∈ found, ∀ y ∈ p.2.type.names, t.Met fresh found y := by
  fun_induction visit t fresh pending generalizing found with
  | case1 =>
    cases h
    exact ⟨nofun, nofun⟩
  | case2 => cases h
  | case3 => cases h
  | case4 fresh name rest code hcode hany head hhead found' fault hvisit ih =>
    cases h
    obtain ⟨hpending, hfound⟩ := ih hvisit
    have hmet : ∀ {x}, t.Met (forget name fresh) found' x → t.Met fresh ((name, head) :: found') x := by
      rintro x ⟨hbound, hx | hx⟩
      · exact ⟨hbound, .inl (List.mem_cons_of_mem _ hx)⟩
      · by_cases hname : x = name
        · exact ⟨hbound, .inl (hname ▸ List.mem_cons_self)⟩
        · refine ⟨hbound, .inr ?_⟩
          simp only [forget, List.any_eq_false, List.mem_filter, beq_iff_eq] at hx ⊢
          intro p hp hpx
          exact hx p ⟨hp, by simpa [hpx] using hname⟩ hpx
    have hself : t.Met fresh ((name, head) :: found') name :=
      ⟨Option.isSome_iff_exists.mpr ⟨code, hcode⟩, .inl List.mem_cons_self⟩
    constructor
    · intro x hx
      rcases List.mem_cons.mp hx with rfl | hx
      · exact hself
      · exact hmet (hpending x (List.mem_append_right _ hx))
    · intro p hp y hy
      rcases List.mem_cons.mp hp with rfl | hp
      · exact hmet (hpending y (List.mem_append_left _ (List.mem_reverse.mpr hy)))
      · exact hmet (hfound p hp y hy)
  | case5 fresh name rest code hcode hany ih =>
    obtain ⟨hpending, hfound⟩ := ih h
    refine ⟨fun x hx => ?_, hfound⟩
    rcases List.mem_cons.mp hx with rfl | hx
    · exact ⟨Option.isSome_iff_exists.mpr ⟨code, hcode⟩, .inr (Bool.eq_false_iff.mpr hany)⟩
    · exact hpending x hx

/-- The names that a type depends on: those that occur in it, and with each name those that occur
in what it is bound to. -/
theorem dependencies_closed {type : Ty} {found : List (String × Head)}
    (h : t.dependencies type = (found, none)) :
    (∀ x ∈ type.names, x ∈ found.map Prod.fst) ∧
      ∀ p ∈ found, t.Reach type (.named p.1) ∧ t.resolve p.1 = .ok p.2 ∧
        ∀ y ∈ p.2.type.names, y ∈ found.map Prod.fst := by
  obtain ⟨hpending, hfound⟩ := visit_met h
  have hmet : ∀ {x}, t.Met t.labels found x → x ∈ found.map Prod.fst := by
    rintro x ⟨hbound, hx | hx⟩
    · exact hx
    · obtain ⟨code, hcode⟩ := Option.isSome_iff_exists.mp hbound
      obtain ⟨before, after, he, _⟩ := List.lookup_eq_some_iff.mp hcode
      rw [he] at hx
      simp at hx
  refine ⟨fun x hx => hmet (hpending x (List.mem_reverse.mpr hx)), fun p hp => ?_⟩
  have hp' : p ∈ (visit t t.labels type.names.reverse).1 := by
    rw [show visit t t.labels type.names.reverse = (found, none) from h]
    exact hp
  obtain ⟨x, hx, hreach, hresolve⟩ := visit_reach hp'
  refine ⟨(reach_of_names (List.mem_reverse.mp hx)).trans hreach, hresolve, ?_⟩
  exact fun y hy => hmet (hfound p hp y hy)

end Search

theorem follow_type (t : Table) (head : Head) : t.follow head.type = .ok head := by
  cases head <;> rfl

theorem isBound_of_labels {t u : Table} (h : u.labels = t.labels) (x : String) :
    u.isBound x = t.isBound x := by
  rw [isBound, isBound, labelCode?, labelCode?, h]

theorem Extends.resolve {t u : Table} (h : t.Extends u) {x : String} {head : Head}
    (hx : t.resolve x = .ok head) : u.resolve x = .ok head := by
  unfold Table.resolve at hx ⊢
  split at hx
  · rename_i code hcode
    rw [h.labels x code hcode]
    exact h.typeOfCode hx
  · cases hx

/-- What binding found names does: what was there stays, nothing is bound but the names found, and
nothing is added but what occurs in their types. -/
structure Gains (t : Table) (found : List (String × Head)) (u : Table) : Prop where
  extended : t.Extends u
  sound : u.Sound
  bound : ∀ p ∈ found, u.isBound p.1 = true
  names : ∀ x, u.isBound x = true → t.isBound x = true ∨ ∃ p ∈ found, p.1 = x ∧
    ∃ head, u.resolve x = .ok head ∧ p.2.type.same head.type = true
  entries : ∀ e ∈ u.entries, e ∈ t.entries ∨ ∃ p ∈ found, e ∈ p.2.type.parts

theorem Extends.isBound {t u : Table} (h : t.Extends u) {x : String} (hx : t.isBound x = true) :
    u.isBound x = true := by
  obtain ⟨code, hcode⟩ := Option.isSome_iff_exists.mp hx
  exact Option.isSome_iff_exists.mpr ⟨code, h.labels x code hcode⟩

/-- A name can always be bound to a type that is no name. -/
theorem bind_head (t : Table) (name : String) (head : Head) :
    ∃ code, t.registerLabel name head.type = .ok (code, copyLabels.bind t (name, head)) := by
  cases hreg : t.registerLabel name head.type with
  | ok r => exact ⟨r.1, by simp only [copyLabels.bind, hreg]⟩
  | error e =>
    unfold registerLabel at hreg
    obtain ⟨code, u, hu⟩ := register_head t head
    split at hreg
    · cases hreg
    · rw [hu] at hreg
      cases hreg

theorem gains_bind {t : Table} (hs : t.Sound) (p : String × Head) : Gains t [p] (copyLabels.bind t p) := by
  obtain ⟨name, head⟩ := p
  obtain ⟨code, hreg⟩ := bind_head t name head
  generalize copyLabels.bind t (name, head) = u at hreg ⊢
  have hbound : u.isBound name = true :=
    Option.isSome_iff_exists.mpr ⟨code, registerLabel_bound hreg⟩
  refine ⟨registerLabel_extends hreg, registerLabel_sound hreg hs, by simpa using hbound, ?_, ?_⟩
  · intro x hx
    rcases registerLabel_eq_ok hreg with ⟨_, rfl⟩ | ⟨hnone, v, hv, rfl⟩
    · exact .inl hx
    · by_cases hname : x = name
      · subst hname
        obtain ⟨head₁, head₂, hfollow, hcode, hsame⟩ := codeOf_stands (hv.sound hs) hv.found
        rw [follow_type] at hfollow
        cases hfollow
        refine .inr ⟨_, List.mem_singleton_self _, rfl, head₂, ?_, hsame⟩
        rw [Table.resolve, registerLabel_bound hreg]
        exact hcode
      · have hnone' : v.labelCode? name = none := by
          rw [labelCode?, hv.labels]
          exact hnone
        rw [isBound, labelCode?_bind hnone', if_neg hname] at hx
        exact .inl ((isBound_of_labels hv.labels x).symm.trans hx)
  · intro e he
    rcases registerLabel_eq_ok hreg with ⟨_, rfl⟩ | ⟨_, v, hv, rfl⟩
    · exact .inl he
    · exact (hv.parts e he).imp_right fun h => ⟨_, List.mem_singleton_self _, h⟩

theorem Gains.append {t u v : Table} {found found' : List (String × Head)} (h : Gains t found u)
    (h' : Gains u found' v) : Gains t (found ++ found') v := by
  refine ⟨h.extended.trans h'.extended, h'.sound, ?_, ?_, ?_⟩
  · intro p hp
    rcases List.mem_append.mp hp with hp | hp
    · exact h'.extended.isBound (h.bound p hp)
    · exact h'.bound p hp
  · intro x hx
    rcases h'.names x hx with hx | ⟨p, hp, hrest⟩
    · rcases h.names x hx with hx | ⟨p, hp, rfl, head, hhead, hsame⟩
      · exact .inl hx
      · exact .inr ⟨p, List.mem_append_left _ hp, rfl, head, h'.extended.resolve hhead, hsame⟩
    · exact .inr ⟨p, List.mem_append_right _ hp, hrest⟩
  · intro e he
    rcases h'.entries e he with he | ⟨p, hp, hc⟩
    · exact (h.entries e he).imp_right fun ⟨p, hp, hc⟩ => ⟨p, List.mem_append_left _ hp, hc⟩
    · exact .inr ⟨p, List.mem_append_right _ hp, hc⟩

theorem gains_foldl {t : Table} (hs : t.Sound) (found : List (String × Head)) :
    Gains t found (found.foldl copyLabels.bind t) := by
  induction found generalizing t with
  | nil => exact ⟨.refl t, hs, nofun, fun x hx => .inl hx, fun e he => .inl he⟩
  | cons p found ih =>
    have hfirst := gains_bind hs p
    exact hfirst.append (ih hfirst.sound)

/-- A table that holds what types need: its names are some that the types lead to and stand for the
same types as in `env` up to names of fields, no name that occurs there is missing, and no entry is
foreign to the types. -/
structure Copies (env : Table) (types : List Ty) (t : Table) : Prop where
  sound : t.Sound
  reached : ∀ x, t.isBound x = true → ∃ type ∈ types, env.Reach type (.named x)
  heads : ∀ x, t.isBound x = true → ∃ head head', env.resolve x = .ok head ∧
    t.resolve x = .ok head' ∧ head.type.same head'.type = true ∧
    ∀ y ∈ head.type.names, t.isBound y = true
  entries : ∀ e ∈ t.entries, ∃ type ∈ types, ∃ u, env.Reach type u ∧
    env.former u = some (.composite e)

section Copies
variable {env t u : Table} {types : List Ty}

theorem copies_empty (env : Table) (types : List Ty) : Copies env types {} := by
  have hnone : ∀ x, ({} : Table).isBound x ≠ true := by simp [isBound, labelCode?, List.lookup]
  exact ⟨Built.empty.sound, fun x hx => absurd hx (hnone x), fun x hx => absurd hx (hnone x), by simp⟩

theorem Copies.copyLabels (h : Copies env types t) {type : Ty} (hm : type ∈ types)
    (hcopy : env.copyLabels type t = (none, u)) :
    Copies env types u ∧ t.Extends u ∧ ∀ x ∈ type.names, u.isBound x = true := by
  obtain ⟨found, hfound⟩ : ∃ found, env.dependencies type = (found, none) := by
    unfold Table.copyLabels at hcopy
    exact ⟨_, Prod.ext rfl (congrArg Prod.fst hcopy)⟩
  have hfold : found.foldl copyLabels.bind t = u := by
    simpa only [Table.copyLabels, hfound] using congrArg Prod.snd hcopy
  obtain ⟨hnames, hclosed⟩ := dependencies_closed hfound
  have hgains := gains_foldl h.sound found
  rw [hfold] at hgains
  have hbound : ∀ {x}, x ∈ found.map Prod.fst → u.isBound x = true := by
    intro x hx
    obtain ⟨p, hp, rfl⟩ := List.mem_map.mp hx
    exact hgains.bound p hp
  refine ⟨⟨hgains.sound, ?_, ?_, ?_⟩, hgains.extended, fun x hx => hbound (hnames x hx)⟩
  · intro x hx
    rcases hgains.names x hx with hx | ⟨p, hp, rfl, _⟩
    · exact h.reached x hx
    · exact ⟨type, hm, (hclosed p hp).1⟩
  · intro x hx
    rcases hgains.names x hx with hx | ⟨p, hp, rfl, head', hhead', hsame⟩
    · obtain ⟨head, head', hhead, hhead', hsame, hy⟩ := h.heads x hx
      exact ⟨head, head', hhead, hgains.extended.resolve hhead', hsame,
        fun y hm => hgains.extended.isBound (hy y hm)⟩
    · obtain ⟨_, hhead, hy⟩ := hclosed p hp
      exact ⟨p.2, head', hhead, hhead', hsame, fun y hm => hbound (hy y hm)⟩
  · intro e he
    rcases hgains.entries e he with he | ⟨p, hp, he⟩
    · exact h.entries e he
    · obtain ⟨hreach, hhead, _⟩ := hclosed p hp
      obtain ⟨v, hv, hf⟩ := (reach_of_resolve hhead).2 e he
      exact ⟨type, hm, v, hreach.trans hv, hf⟩

theorem Copies.register (h : Copies env types t) {type : Ty} {code : Int} (hm : type ∈ types)
    (hreg : t.register type = .ok (code, u)) : Copies env types u := by
  have hu := register_eq_ok hreg
  refine ⟨hu.sound h.sound, ?_, ?_, ?_⟩
  · intro x hx
    rw [isBound_of_labels hu.labels] at hx
    exact h.reached x hx
  · intro x hx
    rw [isBound_of_labels hu.labels] at hx
    obtain ⟨head, head', hhead, hhead', hsame, hy⟩ := h.heads x hx
    refine ⟨head, head', hhead, hu.extended.resolve hhead', hsame, fun y hm => ?_⟩
    rw [isBound_of_labels hu.labels]
    exact hy y hm
  · intro e he
    rcases hu.parts e he with he | he
    · exact h.entries e he
    · exact ⟨type, hm, reach_of_parts he⟩

end Copies

end Didl.Table

namespace Didl.Message
open Table
variable {env sub : Table} {types : List Ty} {codes : List Int}

theorem copies_of_names {as : List Ty} {t u : Table} (h : Copies env types t) (has : as ⊆ types)
    (hfold : as.foldlM (fun table type =>
      match env.copyLabels type table with
      | (none, table) => Except.ok table
      | (some e, _) => .error e) t = .ok u) :
    Copies env types u ∧ t.Extends u ∧ ∀ type ∈ as, ∀ x ∈ type.names, u.isBound x = true := by
  induction as generalizing t with
  | nil =>
    cases hfold
    exact ⟨h, .refl _, nofun⟩
  | cons type as ih =>
    rw [List.foldlM_cons] at hfold
    split at hfold
    · rename_i t₁ hcopy
      obtain ⟨hfirst, hext, hnames⟩ := h.copyLabels (has List.mem_cons_self) hcopy
      obtain ⟨hrest, hext', hnames'⟩ := ih hfirst (fun _ hx => has (List.mem_cons_of_mem _ hx)) hfold
      refine ⟨hrest, hext.trans hext', fun type' hm x hx => ?_⟩
      rcases List.mem_cons.mp hm with rfl | hm
      · exact hext'.isBound (hnames x hx)
      · exact hnames' type' hm x hx
    · cases hfold

theorem copies_of_types {as : List Ty} {t u : Table} {done all : List Int}
    (h : Copies env types t) (has : as ⊆ types)
    (hfold : as.foldlM (fun (codes, table) type => do
      let (code, table) ← table.register type
      pure (code :: codes, table)) (done, t) = Except.ok (all, u)) :
    Copies env types u ∧ t.Extends u ∧
      ∃ codes, List.Forall₂ (fun type code => u.codeOf type = .ok code) as codes ∧
        all = codes.reverse ++ done := by
  induction as generalizing t done with
  | nil =>
    cases hfold
    exact ⟨h, .refl _, [], .nil, rfl⟩
  | cons type as ih =>
    rw [List.foldlM_cons] at hfold
    cases hreg : t.register type with
    | error e =>
      simp only [hreg] at hfold
      cases hfold
    | ok r =>
      obtain ⟨code, t₁⟩ := r
      simp only [hreg] at hfold
      have hreg' := register_eq_ok hreg
      obtain ⟨hrest, hext, codes, hcodes, rfl⟩ :=
        ih (h.register (has List.mem_cons_self) hreg) (fun _ hx => has (List.mem_cons_of_mem _ hx)) hfold
      refine ⟨hrest, hreg'.extended.trans hext, code :: codes, ?_, by simp⟩
      exact .cons (hext.codeOf hreg'.found) hcodes

/-- The table of a message holds what its types need, and each type under its code. -/
theorem tableFor_eq_ok (h : tableFor env types = .ok (codes, sub)) :
    Copies env types sub ∧ (∀ type ∈ types, ∀ x ∈ type.names, sub.isBound x = true) ∧
      List.Forall₂ (fun type code => sub.codeOf type = .ok code) types codes := by
  unfold tableFor at h
  simp only [bind, Except.bind] at h
  split at h
  · cases h
  · rename_i named hnamed
    split at h
    · cases h
    · rename_i r hall
      obtain ⟨all, u⟩ := r
      cases h
      obtain ⟨hcopies, _, hnames⟩ := copies_of_names (copies_empty env types) (fun _ hx => hx) hnamed
      obtain ⟨hcopies', hext, codes, hcodes, rfl⟩ := copies_of_types hcopies (fun _ hx => hx) hall
      rw [List.append_nil, List.reverse_reverse]
      exact ⟨hcopies', fun type hm x hx => hext.isBound (hnames type hm x hx), hcodes⟩

end Didl.Message
