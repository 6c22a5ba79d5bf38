import Didl.Prelude.Basic
import Didl.Proofs.Traversal

namespace Didl.Rebuilt
variable {raw : Array Entry} {s s' s'' : Rebuilt} {path : List Nat}

def known (s : Rebuilt) (i : Nat) : Option (Composite Ty × Nat) := s.done[i]?.join

def Named (s : Rebuilt) (i : Nat) : Prop := s.labelled[i]? = some true

/-- A type that may stand for a code: what its opcode says, the name of an entry, or a copy of
what the entry was rebuilt as. -/
inductive Stands (s : Rebuilt) : Int → Ty → Prop
  | prim {code : Int} {p : Prim} : Prim.ofOpcode? code = some p → code < 0 → Stands s code (.prim p)
  | named {i : Nat} : s.Named i → Stands s i (.named (entryLabel i))
  | copy {i : Nat} {c : Composite Ty} {n : Nat} : s.known i = some (c, n) → Stands s i (.composite c)

/-- Every entry that was rebuilt has the form of the entry that was read, and its members stand for
the codes that were read. -/
structure Faithful (raw : Array Entry) (s : Rebuilt) : Prop where
  done_size : s.done.size = raw.size
  labelled_size : s.labelled.size = raw.size
  entry : ∀ i c n, s.known i = some (c, n) → ∃ e, raw[i]? = some e ∧ e.Rel s.Stands c

def Occurs (s : Rebuilt) (i : Nat) : Prop :=
  ∃ j c n, s.known j = some (c, n) ∧ .named (entryLabel i) ∈ c.members

/-- What making types does within the entries of `path`: none of those is rebuilt meanwhile,
nothing that was rebuilt changes, and a name that is new is among the types or in an entry. -/
structure Grows (path : List Nat) (s : Rebuilt) (made : List Ty) (s' : Rebuilt) : Prop where
  known : ∀ i r, s.known i = some r → s'.known i = some r
  named : ∀ i, s.Named i → s'.Named i
  path : ∀ i ∈ path, s.known i = none → s'.known i = none
  fresh : ∀ i, s'.Named i → s.Named i ∨ s'.Occurs i ∨ .named (entryLabel i) ∈ made

theorem Grows.refl (path : List Nat) (s : Rebuilt) : Grows path s [] s :=
  ⟨fun _ _ h => h, fun _ h => h, fun _ _ h => h, fun _ h => .inl h⟩

theorem Grows.occurs {made : List Ty} (h : Grows path s made s') {i : Nat} (ho : s.Occurs i) :
    s'.Occurs i := by
  obtain ⟨j, c, n, hj, hm⟩ := ho
  exact ⟨j, c, n, h.known _ _ hj, hm⟩

theorem Grows.append {made made' : List Ty} (h : Grows path s made s')
    (k : Grows path s' made' s'') : Grows path s (made ++ made') s'' := by
  refine ⟨fun i r hi => k.known i r (h.known i r hi), fun i hi => k.named i (h.named i hi),
    fun i hi hs => k.path i hi (h.path i hi hs), ?_⟩
  intro i hi
  rcases k.fresh i hi with hi | ho | hm
  · rcases h.fresh i hi with hi | ho | hm
    · exact .inl hi
    · exact .inr (.inl (k.occurs ho))
    · exact .inr (.inr (List.mem_append_left _ hm))
  · exact .inr (.inl ho)
  · exact .inr (.inr (List.mem_append_right _ hm))

theorem Stands.grows {made : List Ty} {code : Int} {type : Ty} (h : s.Stands code type)
    (hg : Grows path s made s') : s'.Stands code type := by
  cases h with
  | prim hp hneg => exact .prim hp hneg
  | named hi => exact .named (hg.named _ hi)
  | copy hi => exact .copy (hg.known _ _ hi)

def Open (raw : Array Entry) (s : Rebuilt) (path : List Nat) : Prop :=
  ∀ i ∈ path, i < raw.size ∧ s.known i = none

theorem Open.grows {made : List Ty} (h : Open raw s path) (hg : Grows path s made s') :
    Open raw s' path :=
  fun i hi => ⟨(h i hi).1, hg.path i hi (h i hi).2⟩

def Expands (raw : Array Entry) (expand : List Nat → Nat → M (Composite Ty × Nat)) : Prop :=
  ∀ path index s r s', Faithful raw s → Open raw s path → index ∉ path →
    expand path index s = .ok (r, s') →
    Faithful raw s' ∧ Grows path s [] s' ∧ s'.known index = some r

theorem Faithful.lt_size (h : Faithful raw s) {i : Nat} {r : Composite Ty × Nat}
    (hi : s.known i = some r) : i < raw.size := by
  obtain ⟨e, he, _⟩ := h.entry i r.1 r.2 hi
  exact (Array.getElem?_eq_some_iff.mp he).1

theorem refer_ok {i : Nat} {r : Ty × Nat} (hf : Faithful raw s) (hi : i < raw.size)
    (h : refer i s = .ok (r, s')) :
    Faithful raw s' ∧ Grows path s [r.1] s' ∧ s'.Stands i r.1 := by
  cases h
  have hnamed : ∀ j, (s.labelled.setIfInBounds i true)[j]? = some true ↔ s.Named j ∨ j = i := by
    intro j
    rw [Array.getElem?_setIfInBounds]
    split
    · rename_i hij
      subst hij
      simp [hf.labelled_size, hi]
    · rename_i hij
      have : j ≠ i := fun h => hij h.symm
      simp [Named, this]
  have hg : Grows path s [.named (entryLabel i)]
      { s with labelled := s.labelled.setIfInBounds i true } := by
    refine ⟨fun _ _ h => h, fun j hj => (hnamed j).mpr (.inl hj), fun _ _ h => h, ?_⟩
    intro j hj
    rcases (hnamed j).mp hj with hj | rfl
    · exact .inl hj
    · exact .inr (.inr (List.mem_singleton_self _))
  refine ⟨⟨hf.done_size, by rw [Array.size_setIfInBounds, hf.labelled_size], ?_⟩, hg, ?_⟩
  · intro j c n hj
    obtain ⟨e, he, hr⟩ := hf.entry j c n hj
    exact ⟨e, he, hr.imp fun _ _ hs => hs.grows hg⟩
  · exact .named ((hnamed i).mpr (.inr rfl))

section Members
variable {expand : List Nat → Nat → M (Composite Ty × Nat)}

theorem member_ok {code : Int} {r : Ty × Nat} (he : Expands raw expand) (hf : Faithful raw s)
    (ho : Open raw s path) (h : member expand path code s = .ok (r, s')) :
    Faithful raw s' ∧ Grows path s [r.1] s' ∧ s'.Stands code r.1 := by
  by_cases hneg : code < 0
  · cases hp : Prim.ofOpcode? code with
    | none =>
      rw [member, if_pos hneg, hp] at h
      cases h
    | some p =>
      rw [member, if_pos hneg, hp] at h
      cases h
      exact ⟨hf, ⟨fun _ _ h => h, fun _ h => h, fun _ _ h => h, fun _ h => .inl h⟩, .prim hp hneg⟩
  · obtain ⟨i, rfl⟩ : ∃ i : Nat, code = i := ⟨code.toNat, by omega⟩
    rw [member, if_neg hneg] at h
    simp only [Int.toNat_natCast, List.contains_iff_mem] at h
    by_cases hi : i ∈ path
    · rw [if_pos hi] at h
      exact refer_ok hf (ho i hi).1 h
    · rw [if_neg hi] at h
      simp only [bind, StateT.bind, Except.bind] at h
      split at h
      · cases h
      · rename_i q hq
        obtain ⟨⟨c, n⟩, s₁⟩ := q
        obtain ⟨hf₁, hg₁, hknown⟩ := he _ _ _ _ _ hf ho hi hq
        dsimp only at h
        split at h
        · obtain ⟨hf', hg', hs'⟩ := @refer_ok _ _ _ path _ _ hf₁ (hf₁.lt_size hknown) h
          exact ⟨hf', hg₁.append hg', hs'⟩
        · cases h
          refine ⟨hf₁, ⟨hg₁.known, hg₁.named, hg₁.path, ?_⟩, .copy hknown⟩
          intro j hj
          rcases hg₁.fresh j hj with hj | hj | hj
          · exact .inl hj
          · exact .inr (.inl hj)
          · cases hj

theorem members_ok {codes : List Int} {rs : List (Ty × Nat)} (he : Expands raw expand)
    (hf : Faithful raw s) (ho : Open raw s path) (h : Steps (member expand path) s codes rs s') :
    Faithful raw s' ∧ Grows path s (rs.map Prod.fst) s' ∧
      List.Forall₂ s'.Stands codes (rs.map Prod.fst) := by
  induction h with
  | nil => exact ⟨hf, .refl path _, .nil⟩
  | cons hb _ ih =>
    obtain ⟨hf₁, hg₁, hs₁⟩ := member_ok he hf ho hb
    obtain ⟨hf₂, hg₂, hs₂⟩ := ih hf₁ (ho.grows hg₁)
    exact ⟨hf₂, hg₁.append hg₂, .cons (hs₁.grows hg₂) hs₂⟩

end Members

/-- Putting an entry that was not yet rebuilt among those that are. -/
theorem grows_store {i : Nat} {r : Composite Ty × Nat} (hnone : s.known i = none) (hi : i ∉ path) :
    Grows path s [] { s with done := s.done.setIfInBounds i (some r) } := by
  have hknown : ∀ j, j ≠ i →
      Rebuilt.known { s with done := s.done.setIfInBounds i (some r) } j = s.known j := by
    intro j hj
    simp only [Rebuilt.known, Array.getElem?_setIfInBounds, if_neg (Ne.symm hj)]
  refine ⟨?_, fun _ h => h, ?_, fun _ h => .inl h⟩
  · intro j q hj
    rw [hknown j (by rintro rfl; rw [hnone] at hj; cases hj), hj]
  · intro j hj hs
    rw [hknown j (by rintro rfl; exact hi hj), hs]

theorem known_store {i : Nat} {r : Composite Ty × Nat} (hi : i < s.done.size) :
    Rebuilt.known { s with done := s.done.setIfInBounds i (some r) } i = some r := by
  simp [Rebuilt.known, hi]

/-- How an entry is rebuilt: it was rebuilt before, or its members are made, within one more entry,
and the result is kept with the count of the types that they hold. -/
theorem expand_steps {limit index : Nat} {r : Composite Ty × Nat}
    (h : expand raw limit path index s = .ok (r, s')) :
    (s.known index = some r ∧ s' = s) ∨
      ∃ limit' entry rs s₁, limit = limit' + 1 ∧ s.known index = none ∧ raw[index]? = some entry ∧
        Steps (member (expand raw limit') (index :: path)) s entry.members rs s₁ ∧
        r = ((entry.refill rs).map Prod.fst, (entry.refill rs).members.foldl (fun n x => n + x.2) 1) ∧
        s' = { s₁ with done := s₁.done.setIfInBounds index (some r) } := by
  unfold expand at h
  simp only [bind, StateT.bind, Except.bind, get, getThe, MonadStateOf.get, StateT.get] at h
  dsimp only [pure, Except.pure] at h
  cases hknown : s.done[index]?.join with
  | some q =>
    rw [hknown] at h
    cases h
    exact .inl ⟨hknown, rfl⟩
  | none =>
    rw [hknown] at h
    cases limit with
    | zero => cases h
    | succ limit =>
      cases hraw : raw[index]? with
      | none =>
        rw [hraw] at h
        cases h
      | some entry =>
        rw [hraw] at h
        simp only [StateT.bind, bind, Except.bind] at h
        split at h
        · cases h
        · rename_i q hq
          obtain ⟨rs, hsteps, hbuilt⟩ := Composite.steps_of_mapM hq
          cases h
          exact .inr ⟨limit, entry, rs, q.2, rfl, hknown, rfl, hsteps, by rw [← hbuilt], rfl⟩

/-- The entry that is rebuilt, whatever its count. -/
theorem expand_eq_ok {limit index : Nat} {r : Composite Ty × Nat}
    (h : expand raw limit path index s = .ok (r, s')) :
    (s.known index = some r ∧ s' = s) ∨
      ∃ limit' entry rs s₁, limit = limit' + 1 ∧ s.known index = none ∧ raw[index]? = some entry ∧
        Steps (member (expand raw limit') (index :: path)) s entry.members rs s₁ ∧
        r.1 = (entry.refill rs).map Prod.fst ∧
        s' = { s₁ with done := s₁.done.setIfInBounds index (some r) } := by
  refine (expand_steps h).imp_right ?_
  rintro ⟨limit', entry, rs, s₁, hlimit, hnone, hraw, hsteps, hr, hs'⟩
  exact ⟨limit', entry, rs, s₁, hlimit, hnone, hraw, hsteps, congrArg Prod.fst hr, hs'⟩

theorem expand_eq_error {limit index : Nat} {e : Fault}
    (h : expand raw limit path index s = .error e) :
    (limit = 0 ∧ e = .tooDeep) ∨ raw[index]? = none ∨
      ∃ limit' entry, limit = limit' + 1 ∧ raw[index]? = some entry ∧
        ∃ code ∈ entry.members, ∃ s₁,
          member (expand raw limit') (index :: path) code s₁ = .error e := by
  unfold expand at h
  simp only [bind, StateT.bind, Except.bind, get, getThe, MonadStateOf.get, StateT.get] at h
  dsimp only [pure, Except.pure] at h
  cases hknown : s.done[index]?.join with
  | some q =>
    rw [hknown] at h
    cases h
  | none =>
    rw [hknown] at h
    cases limit with
    | zero =>
      cases h
      exact .inl ⟨rfl, rfl⟩
    | succ limit =>
      cases hraw : raw[index]? with
      | none => exact .inr (.inl rfl)
      | some entry =>
        rw [hraw] at h
        simp only [StateT.bind, bind, Except.bind] at h
        split at h
        · rename_i e' hq
          cases h
          exact .inr (.inr ⟨limit, entry, rfl, rfl, Composite.exists_error_of_mapM hq⟩)
        · cases h

theorem expands (raw : Array Entry) (limit : Nat) : Expands raw (expand raw limit) := by
  induction limit with
  | zero =>
    intro path index s r s' hf ho hnew h
    rcases expand_eq_ok h with ⟨hknown, rfl⟩ | ⟨limit', _, _, _, hlimit, _⟩
    · exact ⟨hf, .refl path _, hknown⟩
    · cases hlimit
  | succ limit ih =>
    intro path index s r s' hf ho hnew h
    rcases expand_eq_ok h with ⟨hknown, rfl⟩ | ⟨_, entry, rs, s₁, hlimit, hnone, hraw, hsteps, hr, rfl⟩
    · exact ⟨hf, .refl path _, hknown⟩
    · cases hlimit
      have hindex := (Array.getElem?_eq_some_iff.mp hraw).1
      have ho' : Open raw s (index :: path) := by
        intro i hi
        rcases List.mem_cons.mp hi with rfl | hi
        · exact ⟨hindex, hnone⟩
        · exact ho i hi
      obtain ⟨hf₁, hg₁, hs₁⟩ := members_ok ih hf ho' hsteps
      have hmembers : r.1.members = rs.map Prod.fst := by
        rw [hr, Composite.members_map, Composite.refill_members hsteps.length_eq]
      have hg₂ : Grows path s₁ [] _ := grows_store (r := r) (hg₁.path index List.mem_cons_self hnone) hnew
      have hstored := known_store (s := s₁) (r := r) (hf₁.done_size ▸ hindex)
      have hrel := ((Composite.refill_rel (List.forall₂_map_right_iff.mp hs₁)).imp
        fun _ _ hs => hs.grows hg₂).map_right
      rw [← hr] at hrel
      refine ⟨⟨?_, hf₁.labelled_size, ?_⟩, ?_, hstored⟩
      · rw [Array.size_setIfInBounds, hf₁.done_size]
      · intro j c n hj
        by_cases hji : j = index
        · subst hji
          rw [hstored] at hj
          cases hj
          exact ⟨entry, hraw, hrel⟩
        · have hj₁ : s₁.known j = some (c, n) := by
            simpa only [Rebuilt.known, Array.getElem?_setIfInBounds, if_neg (Ne.symm hji)] using hj
          obtain ⟨e, he, hje⟩ := hf₁.entry j c n hj₁
          exact ⟨e, he, hje.imp fun _ _ hs => hs.grows hg₂⟩
      · refine ⟨fun i q hi => hg₂.known i q (hg₁.known i q hi), hg₁.named, ?_, ?_⟩
        · exact fun i hi hs => hg₂.path i hi (hg₁.path i (List.mem_cons_of_mem _ hi) hs)
        · intro i hi
          rcases hg₁.fresh i hi with hi | ho | hm
          · exact .inl hi
          · exact .inr (.inl (hg₂.occurs ho))
          · exact .inr (.inl ⟨index, r.1, r.2, hstored, hmembers ▸ hm⟩)

theorem member_eq_error {expand : List Nat → Nat → M (Composite Ty × Nat)} {code : Int} {e : Fault}
    (hcode : Entry.knownCode raw.size code = true) (h : member expand path code s = .error e) :
    ∃ i : Nat, code = i ∧ i < raw.size ∧ i ∉ path ∧ expand path i s = .error e := by
  unfold Entry.knownCode at hcode
  by_cases hneg : code < 0
  · rw [if_pos hneg] at hcode
    obtain ⟨p, hp⟩ := Option.isSome_iff_exists.mp hcode
    rw [member, if_pos hneg, hp] at h
    cases h
  · rw [if_neg hneg] at hcode
    obtain ⟨i, rfl⟩ : ∃ i : Nat, code = i := ⟨code.toNat, by omega⟩
    rw [member, if_neg hneg] at h
    simp only [Int.toNat_natCast, List.contains_iff_mem] at h
    by_cases hi : i ∈ path
    · rw [if_pos hi] at h
      cases h
    · rw [if_neg hi] at h
      refine ⟨i, rfl, by simpa using hcode, hi, ?_⟩
      simp only [bind, StateT.bind, Except.bind] at h
      split at h
      · rename_i e' he
        cases h
        exact he
      · split at h <;> cases h

/-- Where every code stands for something, rebuilding fails only for its depth, and then there are
more entries than levels. -/
theorem expand_tooDeep {limit index : Nat} {e : Fault}
    (hraw : ∀ (i : Nat) (entry : Entry), raw[i]? = some entry → ∀ code ∈ entry.members,
      Entry.knownCode raw.size code = true)
    (hnodup : path.Nodup) (hpath : ∀ i ∈ path, i < raw.size) (hindex : index < raw.size)
    (hnew : index ∉ path) (h : expand raw limit path index s = .error e) :
    e = .tooDeep ∧ limit + path.length < raw.size := by
  have hnodup' : (index :: path).Nodup := List.nodup_cons.mpr ⟨hnew, hnodup⟩
  have hpath' : ∀ i ∈ index :: path, i < raw.size := by
    intro i hi
    rcases List.mem_cons.mp hi with rfl | hi
    · exact hindex
    · exact hpath i hi
  induction limit generalizing path index s with
  | zero =>
    rcases expand_eq_error h with ⟨_, rfl⟩ | hnone | ⟨_, _, hlimit, _⟩
    · have hle := hnodup'.length_le_of_subset fun i hi => List.mem_range.mpr (hpath' i hi)
      rw [List.length_range, List.length_cons] at hle
      exact ⟨rfl, by omega⟩
    · simp [hindex] at hnone
    · cases hlimit
  | succ limit ih =>
    rcases expand_eq_error h with ⟨hlimit, _⟩ | hnone | ⟨_, entry, hlimit, hentry, code, hcode, s₁, he⟩
    · cases hlimit
    · simp [hindex] at hnone
    · cases hlimit
      obtain ⟨i, _, hi, hinew, he⟩ := member_eq_error (hraw index entry hentry code hcode) he
      have hnodup'' : (i :: index :: path).Nodup := List.nodup_cons.mpr ⟨hinew, hnodup'⟩
      have hpath'' : ∀ j ∈ i :: index :: path, j < raw.size := by
        intro j hj
        rcases List.mem_cons.mp hj with rfl | hj
        · exact hi
        · exact hpath' j hj
      obtain ⟨htoo, hlt⟩ := ih hnodup' hpath' hi hinew he hnodup'' hpath''
      rw [List.length_cons] at hlt
      exact ⟨htoo, by omega⟩

/-- Entries that were rebuilt, or whose members are known codes and, where they are indices, within
reach in one level less. -/
def Shallow (raw : Array Entry) (done : Nat → Prop) : Nat → Nat → Prop
  | 0, index => done index
  | limit + 1, index => done index ∨ ∃ entry, raw[index]? = some entry ∧
      ∀ code ∈ entry.members, Entry.knownCode raw.size code = true ∧
        ∀ i : Nat, code = i → Shallow raw done limit i

theorem expand_known {limit index : Nat} {r : Composite Ty × Nat} (h : s.known index = some r) :
    expand raw limit path index s = .ok (r, s) := by
  unfold expand
  simp only [bind, StateT.bind, Except.bind, get, getThe, MonadStateOf.get, StateT.get]
  dsimp only [pure, Except.pure]
  rw [show s.done[index]?.join = some r from h]
  rfl

theorem knownCode_index (count i : Nat) : Entry.knownCode count i = decide (i < count) := by
  simp [Entry.knownCode, Int.not_lt.mpr (Int.natCast_nonneg i)]

theorem member_returns {expand : List Nat → Nat → M (Composite Ty × Nat)} {code : Int}
    (hcode : Entry.knownCode raw.size code = true)
    (h : ∀ i : Nat, code = i → i ∉ path → ∃ r s', expand path i s = .ok (r, s')) :
    ∃ r s', member expand path code s = .ok (r, s') := by
  cases hmember : member expand path code s with
  | ok r => exact ⟨r.1, r.2, rfl⟩
  | error e =>
    obtain ⟨i, hi, _, hinew, herror⟩ := member_eq_error hcode hmember
    obtain ⟨r, s', hok⟩ := h i hi hinew
    rw [hok] at herror
    cases herror

/-- What is within reach is rebuilt. -/
theorem expand_returns {done : Nat → Prop} {limit index : Nat} (hf : Faithful raw s)
    (ho : Open raw s path) (hnew : index ∉ path) (hdone : ∀ i, done i → ∃ r, s.known i = some r)
    (h : Shallow raw done limit index) : ∃ r s', expand raw limit path index s = .ok (r, s') := by
  induction limit generalizing path index s with
  | zero =>
    obtain ⟨r, hr⟩ := hdone index h
    exact ⟨r, s, expand_known hr⟩
  | succ limit ih =>
    cases hknown : s.known index with
    | some r => exact ⟨r, s, expand_known hknown⟩
    | none =>
      rcases h with hd | ⟨entry, hentry, hmembers⟩
      · obtain ⟨r, hr⟩ := hdone index hd
        rw [hknown] at hr
        cases hr
      have ho' : Open raw s (index :: path) := by
        intro i hi
        rcases List.mem_cons.mp hi with rfl | hi
        · exact ⟨(Array.getElem?_eq_some_iff.mp hentry).1, hknown⟩
        · exact ho i hi
      -- Rebuilding a member keeps what was rebuilt, so the next one is still within reach.
      obtain ⟨bs, s', hbs, _⟩ : ∃ bs s', entry.members.mapM (m := M) _ s = .ok (bs, s') ∧ _ :=
        exists_mapM_eq_ok (f := member (expand raw limit) (index :: path))
          (I := fun _ s => Faithful raw s ∧ Open raw s (index :: path) ∧
            ∀ i, done i → ∃ r, s.known i = some r) ⟨hf, ho', hdone⟩
          fun before code after s₁ hcodes ⟨hf₁, ho₁, hdone₁⟩ => by
            obtain ⟨hcode, hshallow⟩ :=
              hmembers code (hcodes ▸ List.mem_append_right _ List.mem_cons_self)
            obtain ⟨r, s₂, hr⟩ := member_returns hcode fun i hi hinew =>
              ih hf₁ ho₁ hinew hdone₁ (hshallow i hi)
            obtain ⟨hf₂, hg₂, _⟩ := member_ok (expands raw limit) hf₁ ho₁ hr
            exact ⟨r, s₂, hr, hf₂, ho₁.grows hg₂, fun i hi =>
              (hdone₁ i hi).imp fun r hr => hg₂.known i r hr⟩
      obtain ⟨built, s', hbuilt⟩ := Composite.exists_mapM_eq_ok ⟨bs, s', hbs⟩
      unfold expand
      simp only [bind, StateT.bind, Except.bind, get, getThe, MonadStateOf.get, StateT.get]
      dsimp only [pure, Except.pure]
      rw [show s.done[index]?.join = none from hknown, hentry]
      simp only [StateT.bind, bind, Except.bind, hbuilt]
      exact ⟨_, _, rfl⟩

theorem faithful_empty (raw : Array Entry) : Faithful raw (.empty raw.size) := by
  refine ⟨Array.size_replicate, Array.size_replicate, ?_⟩
  intro i c n hi
  simp only [known, empty, Array.getElem?_replicate] at hi
  split at hi <;> cases hi

theorem not_named_empty (count i : Nat) : ¬ (Rebuilt.empty count).Named i := by
  intro hi
  simp only [Named, empty, Array.getElem?_replicate] at hi
  split at hi <;> cases hi

theorem entries_ok {indices : List Nat} {rs : List (Composite Ty × Nat)} (hf : Faithful raw s)
    (h : Steps (expand raw maxDepth []) s indices rs s') :
    Faithful raw s' ∧ Grows [] s [] s' ∧
      List.Forall₂ (fun i r => s'.known i = some r) indices rs := by
  induction h with
  | nil => exact ⟨hf, .refl [] _, .nil⟩
  | cons hb _ ih =>
    obtain ⟨hf₁, hg₁, hk₁⟩ := expands raw maxDepth _ _ _ _ _ hf (by simp [Open]) (by simp) hb
    obtain ⟨hf₂, hg₂, hk₂⟩ := ih hf₁
    exact ⟨hf₂, hg₁.append hg₂, .cons (hg₂.known _ _ hk₁) hk₂⟩

/-- Entries that are within reach of those before them are rebuilt one after the other. -/
theorem entries_return (h : ∀ i < raw.size, Shallow raw (· < i) maxDepth i) :
    ∃ cs s, (List.range raw.size).mapM (m := M)
        (fun index => do pure (← expand raw maxDepth [] index).1) (.empty raw.size) = .ok (cs, s) ∧
      Faithful raw s ∧ ∀ i ∈ List.range raw.size, ∃ r, s.known i = some r := by
  refine exists_mapM_eq_ok (I := fun before s => Faithful raw s ∧ ∀ i ∈ before, ∃ r, s.known i = some r)
    ⟨faithful_empty raw, nofun⟩ ?_
  intro before i after s hrange ⟨hf, hknown⟩
  have hmem : ∀ j, j < raw.size ↔ j ∈ before ++ i :: after := by
    intro j
    rw [← hrange, List.mem_range]
  have hi : i < raw.size := (hmem i).mpr (List.mem_append_right _ List.mem_cons_self)
  have hbefore : ∀ j < i, j ∈ before := by
    intro j hj
    have hsorted : (before ++ i :: after).Pairwise (· < ·) := hrange ▸ List.pairwise_lt_range
    rcases List.mem_append.mp ((hmem j).mp (by omega)) with hm | hm
    · exact hm
    · rcases List.mem_cons.mp hm with rfl | hm
      · omega
      · have hlt := List.rel_of_pairwise_cons (List.pairwise_append.mp hsorted).2.1 hm
        omega
  obtain ⟨r, s', hr⟩ := expand_returns hf (by simp [Open]) List.not_mem_nil
    (fun j hj => hknown j (hbefore j hj)) (h i hi)
  obtain ⟨hf', hg, hi'⟩ := expands raw maxDepth _ _ _ _ _ hf (by simp [Open]) List.not_mem_nil hr
  refine ⟨r.1, s', ?_, hf', fun j hj => ?_⟩
  · simp only [bind, StateT.bind, Except.bind, hr]
    rfl
  · rcases List.mem_append.mp hj with hj | hj
    · exact (hknown j hj).imp fun r hr => hg.known j r hr
    · rw [List.mem_singleton.mp hj]
      exact ⟨r, hi'⟩

/-- When all entries were rebuilt, every known code stands for a type. -/
theorem arguments_return {codes : List Int} (hf : Faithful raw s)
    (hknown : ∀ i ∈ List.range raw.size, ∃ r, s.known i = some r)
    (hcodes : ∀ code ∈ codes, Entry.knownCode raw.size code = true) :
    ∃ ts s', codes.mapM (m := M)
      (fun code => do pure (← member (expand raw maxDepth) [] code).1) s = .ok (ts, s') := by
  obtain ⟨ts, s', hts, _⟩ : ∃ ts s', codes.mapM (m := M) _ s = .ok (ts, s') ∧ _ := exists_mapM_eq_ok
    (f := fun code => do pure (← member (expand raw maxDepth) [] code).1)
    (I := fun _ s => Faithful raw s ∧ ∀ i ∈ List.range raw.size, ∃ r, s.known i = some r)
    ⟨hf, hknown⟩ fun before code after s hcode ⟨hf, hknown⟩ => by
      have hcode := hcodes code (hcode ▸ List.mem_append_right _ List.mem_cons_self)
      obtain ⟨r, s', hr⟩ : ∃ r s', member (expand raw maxDepth) [] code s = .ok (r, s') :=
        member_returns hcode fun i hi _ => by
          have hlt : i < raw.size := by
            rw [hi, knownCode_index] at hcode
            exact of_decide_eq_true hcode
          obtain ⟨r, hr⟩ := hknown i (List.mem_range.mpr hlt)
          exact ⟨r, s, expand_known hr⟩
      obtain ⟨hf', hg, _⟩ := member_ok (expands raw maxDepth) hf (by simp [Open]) hr
      refine ⟨r.1, s', ?_, hf', fun i hi => (hknown i hi).imp fun r hr => hg.known i r hr⟩
      simp only [bind, StateT.bind, Except.bind, hr]
      rfl
  exact ⟨ts, s', hts⟩

end Didl.Rebuilt

namespace Didl.Table
open Rebuilt
variable {raw : Array Entry} {codes : List Int} {t : Table} {args : List Ty}

/-- What a table and argument types have in common with the entries and codes that they were
rebuilt from; `s` is what there was in the end. -/
structure Rebuilds (raw : Array Entry) (codes : List Int) (s : Rebuilt) (t : Table)
    (args : List Ty) : Prop where
  faithful : Faithful raw s
  entries : List.Forall₂ (fun i c => ∃ n, s.known i = some (c, n)) (List.range raw.size) t.entries
  arguments : List.Forall₂ s.Stands codes args
  labels : t.labels = ((List.range raw.size).filter fun i => s.labelled[i]?.getD false).map
    fun i => (entryLabel i, (i : Int))
  occurs : ∀ i, s.Named i → s.Occurs i ∨ Ty.named (entryLabel i) ∈ args

/-- What rebuilding does: it expands the entries one after the other, then makes the arguments. -/
theorem rebuild_steps (h : rebuild raw codes = .ok (t, args)) : ∃ rs ts s₁ s,
    Steps (expand raw maxDepth []) (.empty raw.size) (List.range raw.size) rs s₁ ∧
      Steps (member (expand raw maxDepth) []) s₁ codes ts s ∧
      t = ⟨rs.map Prod.fst, ((List.range raw.size).filter fun i => s.labelled[i]?.getD false).map
        fun i => (entryLabel i, (i : Int))⟩ ∧ args = ts.map Prod.fst := by
  unfold rebuild at h
  simp only [StateT.run, bind, StateT.bind, Except.bind] at h
  split at h
  · cases h
  · rename_i r hr
    split at hr
    · cases hr
    · rename_i p hp
      split at hr
      · cases hr
      · rename_i q hq
        cases hr
        cases h
        obtain ⟨rs, hrs, hentries⟩ := (steps_of_mapM hp).of_map
        obtain ⟨ts, hts, hargs⟩ := (steps_of_mapM hq).of_map
        exact ⟨rs, ts, p.2, q.2, hrs, hts, by rw [← hentries], hargs⟩

theorem rebuilds_of_steps {rs : List (Composite Ty × Nat)} {ts : List (Ty × Nat)} {s₁ s : Rebuilt}
    (hrs : Steps (expand raw maxDepth []) (.empty raw.size) (List.range raw.size) rs s₁)
    (hts : Steps (member (expand raw maxDepth) []) s₁ codes ts s) :
    Rebuilds raw codes s ⟨rs.map Prod.fst, ((List.range raw.size).filter fun i =>
      s.labelled[i]?.getD false).map fun i => (entryLabel i, (i : Int))⟩ (ts.map Prod.fst) := by
  obtain ⟨hf₁, hg₁, hk₁⟩ := entries_ok (faithful_empty raw) hrs
  obtain ⟨hf₂, hg₂, hs₂⟩ := members_ok (expands raw maxDepth) hf₁ (by simp [Open]) hts
  refine ⟨hf₂, ?_, hs₂, rfl, ?_⟩
  · refine List.forall₂_map_right_iff.mpr (hk₁.imp fun i r hi => ?_)
    exact ⟨r.2, hg₂.known i r hi⟩
  · intro i hi
    rcases hg₂.fresh i hi with hi | ho | hm
    · rcases hg₁.fresh i hi with hi | ho | hm
      · exact absurd hi (not_named_empty _ i)
      · exact .inl (hg₂.occurs ho)
      · cases hm
    · exact .inl ho
    · exact .inr hm

theorem rebuild_eq_ok (h : rebuild raw codes = .ok (t, args)) : ∃ s, Rebuilds raw codes s t args := by
  obtain ⟨rs, ts, s₁, s, hrs, hts, rfl, rfl⟩ := rebuild_steps h
  exact ⟨s, rebuilds_of_steps hrs hts⟩

/-- Entries that are within reach of those before them make a table. -/
theorem rebuild_returns (h : ∀ i < raw.size, Shallow raw (· < i) maxDepth i)
    (hcodes : ∀ code ∈ codes, Entry.knownCode raw.size code = true) :
    ∃ r, rebuild raw codes = .ok r := by
  obtain ⟨entries, s, hentries, hf, hknown⟩ := entries_return h
  obtain ⟨args, s', hargs⟩ := arguments_return hf hknown hcodes
  unfold rebuild
  simp only [StateT.run, bind, StateT.bind, Except.bind] at hentries hargs ⊢
  rw [hentries]
  dsimp only
  rw [hargs]
  exact ⟨_, rfl⟩

end Didl.Table
