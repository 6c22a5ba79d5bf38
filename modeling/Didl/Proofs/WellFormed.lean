import Didl.Proofs.ReadTypes

namespace Didl.Table
variable {t : Table} {type u : Ty}

/-- What a type has to satisfy by itself: the names in it are bound, the fields of its records and
variants ascend by number and the methods of its services by name, methods are functions, and an
opcode of no meaning is none that has one. -/
structure WellFormed (t : Table) (type : Ty) : Prop where
  bound : ∀ x ∈ type.names, t.isBound x = true
  labels : ∀ c ∈ type.parts, c.shape.Ascends
  methods : ∀ ms, .service ms ∈ type.parts →
    ∀ m ∈ ms, ∃ f, t.former m.type = some f ∧ f.shape.Callable

structure Proper (t : Table) : Prop where
  sound : t.Sound
  entries : ∀ c ∈ t.entries, t.WellFormed (.composite c)

theorem WellFormed.member {c : Composite Ty} (h : t.WellFormed (.composite c)) {m : Ty}
    (hm : m ∈ c.members) : t.WellFormed m := by
  have hparts : m.parts ⊆ (Ty.composite c).parts := fun d hd => by
    rw [Ty.parts_composite]
    exact List.mem_cons_of_mem _ (List.mem_flatMap.mpr ⟨m, hm, hd⟩)
  refine ⟨fun x hx => h.bound x ?_, fun d hd => h.labels d (hparts hd),
    fun ms hms => h.methods ms (hparts hms)⟩
  rw [Ty.names_composite]
  exact List.mem_flatMap.mpr ⟨m, hm, hx⟩

theorem WellFormed.composite {c : Composite Ty} (hc : c.shape.Ascends)
    (hmethods : ∀ ms, c = .service ms → ∀ m ∈ ms, ∃ f, t.former m.type = some f ∧ f.shape.Callable)
    (h : ∀ m ∈ c.members, t.WellFormed m) : t.WellFormed (.composite c) := by
  constructor
  · intro x hx
    rw [Ty.names_composite] at hx
    obtain ⟨m, hm, hx⟩ := List.mem_flatMap.mp hx
    exact (h m hm).bound x hx
  all_goals rw [Ty.parts_composite]
  · refine List.forall_mem_cons.mpr ⟨hc, fun d hd => ?_⟩
    obtain ⟨m, hm, hd⟩ := List.mem_flatMap.mp hd
    exact (h m hm).labels d hd
  · intro ms hms
    rcases List.mem_cons.mp hms with heq | hms
    · exact hmethods ms heq.symm
    · obtain ⟨m, hm, hms⟩ := List.mem_flatMap.mp hms
      exact (h m hm).methods ms hms

/-- What a well-formed type shows is well-formed. -/
theorem Proper.head (h : t.Proper) (hw : t.WellFormed type) :
    ∃ head, t.follow type = .ok head ∧ t.WellFormed head.type := by
  have hprim : ∀ p, t.WellFormed (.prim p) := fun p => ⟨nofun, nofun, nofun⟩
  cases type with
  | prim p => exact ⟨.prim p, rfl, hw⟩
  | composite c => exact ⟨.composite c, rfl, hw⟩
  | named x =>
    obtain ⟨head, hhead⟩ := h.sound.resolve (hw.bound x (List.mem_singleton_self x))
    refine ⟨head, hhead, ?_⟩
    simp only [Table.resolve] at hhead
    split at hhead
    · rcases typeOfCode_eq_ok hhead with ⟨p, _, _, rfl⟩ | ⟨i, e, _, he, rfl⟩
      · exact hprim p
      · exact h.entries e (List.mem_of_getElem? he)
    · cases hhead

theorem Proper.former (h : t.Proper) (hw : t.WellFormed type) :
    ∃ f, t.former type = some f ∧ f.shape.Ascends ∧ (∀ m ∈ f.members, t.WellFormed m) ∧
      ∀ ms, f = .composite (.service ms) → ∀ m ∈ ms, ∃ g, t.former m.type = some g ∧ g.shape.Callable := by
  obtain ⟨head, hhead, hw'⟩ := h.head hw
  refine ⟨head.former, former_eq_some.mpr ⟨head, hhead, rfl⟩, ?_⟩
  cases head with
  | prim p => exact ⟨trivial, nofun, nofun⟩
  | composite c =>
    have hself : c ∈ (Ty.composite c).parts := by
      rw [Ty.parts_composite]
      exact List.mem_cons_self
    refine ⟨hw'.labels c hself, fun m hm => hw'.member hm, ?_⟩
    rintro ms heq
    cases heq
    exact hw'.methods ms hself

theorem Proper.reach (h : t.Proper) (hw : t.WellFormed type) (hu : t.Reach type u) :
    t.WellFormed u := by
  refine hu.invariant (P := t.WellFormed) (fun v f hv hf m hm => ?_) hw
  obtain ⟨f', hf', _, hmembers, _⟩ := h.former hv
  rw [hf] at hf'
  cases hf'
  exact hmembers m hm

theorem Proper.closed (h : t.Proper) (hw : t.WellFormed type) : t.Closed type :=
  fun x hx => (h.reach hw hx).bound x (List.mem_singleton_self x)

theorem Proper.legible (h : t.Proper) (hw : t.WellFormed type) : t.Legible type := by
  constructor
  · intro v f hv hf
    obtain ⟨f', hf', hascends, _⟩ := h.former (h.reach hw hv)
    rw [hf] at hf'
    cases hf'
    exact hascends.tidy
  · intro v ms hv hf
    obtain ⟨f', hf', _, _, hmethods⟩ := h.former (h.reach hw hv)
    rw [hf] at hf'
    cases hf'
    exact hmethods ms rfl

/-- In a well-formed type labels are in order already. -/
theorem Proper.canonicalFormer (h : t.Proper) (hw : t.WellFormed type) :
    t.canonicalFormer type = t.former type := by
  obtain ⟨f, hf, hascends, _⟩ := h.former hw
  rw [Table.canonicalFormer, hf]
  cases f with
  | prim p => rfl
  | composite c =>
    exact congrArg (fun c => some (Former.composite c)) (Composite.canonical_of_ascends hascends)

end Didl.Table
