import Didl.Proofs.Allowance
import Didl.Proofs.Delimiting
import Didl.Proofs.WriteAlike

namespace Didl

/-- Steps that yield the same from the same buffers. They may stop for different causes. -/
def Step.YieldAlike {σ α : Type} (x y : Step σ α) : Prop :=
  ∀ ⦃s s' : σ⦄ ⦃a : α⦄, x s = (.ok a, s') ↔ y s = (.ok a, s')

namespace Step.YieldAlike
variable {σ α β : Type} {x y : Step σ α} {f g : α → Step σ β}

theorem refl (x : Step σ α) : YieldAlike x x := fun _ _ _ => Iff.rfl

theorem bind (h : YieldAlike x y) (hf : ∀ a, YieldAlike (f a) (g a)) :
    YieldAlike (x >>= f) (y >>= g) := by
  intro s s' b
  rw [bind_eq_ok, bind_eq_ok]
  exact exists_congr fun a => exists_congr fun s₁ => and_congr (@h s s₁ a) (@hf a s₁ s' b)

theorem map {k : α → β} (h : YieldAlike x y) :
    YieldAlike (x >>= fun a => Pure.pure (k a)) (y >>= fun a => Pure.pure (k a)) :=
  h.bind fun _ => .refl _

end Step.YieldAlike

namespace Table
variable {t : Table} {type : Ty} {limit : Nat}

/-- A type of no size is `null`, `reserved` or a record of such types. -/
theorem isZeroSized_eq_true (h : t.isZeroSized limit type = true) : ∃ n, limit = n + 1 ∧
    (t.follow type = .ok (.prim .null) ∨ t.follow type = .ok (.prim .reserved) ∨
      ∃ fields, t.follow type = .ok (.composite (.record fields)) ∧
        ∀ f ∈ fields, t.isZeroSized n f.type = true) := by
  cases limit with
  | zero => cases h
  | succ n =>
    refine ⟨n, rfl, ?_⟩
    have hverdict := h
    rw [isZeroSized, zeroSized] at hverdict
    cases hhead : t.follow type with
    | error =>
      rw [hhead] at hverdict
      cases hverdict
    | ok head =>
      rw [hhead] at hverdict
      dsimp only [Bind.bind, Except.bind] at hverdict
      split at hverdict
      · exact .inl rfl
      · exact .inr (.inl rfl)
      · rw [isZeroSized_record hhead] at h
        exact .inr (.inr ⟨_, rfl, List.all_eq_true.mp h⟩)
      · cases hverdict

end Table

namespace Value
open Reader (Streams)
open Step (YieldAlike)
variable {t : Table} {type : Ty} {limit k : Nat}

section Writing
variable {out out' : Array UInt8}

theorem eachField_writes_nothing {values : Assoc UInt32 (Ty → Writer)} {fields : List (Field Ty)}
    (hw : ∀ f ∈ fields, ∀ w, values.lookup f.id = some w → ∀ out out',
      w f.type out = (.ok (), out') → out' = out)
    (h : eachField values fields out = (.ok (), out')) : out' = out := by
  induction fields generalizing out with
  | nil =>
    cases h
    rfl
  | cons f fields ih =>
    rw [eachField] at h
    cases hlookup : values.lookup f.id with
    | none =>
      rw [hlookup] at h
      cases h
    | some w =>
      rw [hlookup] at h
      obtain ⟨⟨⟩, mid, hfirst, h⟩ := Step.bind_eq_ok.mp h
      rw [ih (fun g hg => hw g (List.mem_cons_of_mem _ hg)) h,
        hw f List.mem_cons_self w hlookup out mid hfirst]

/-- Only `null` is written as `null`, and in no bytes. -/
theorem write_null {v : Value} (hhead : t.follow type = .ok (.prim .null))
    (hw : v.write t type out = (.ok (), out')) : out' = out := by
  have hother (v : Value) (composite : Composite Ty → Writer) :
      dispatch t type v (fun _ => none) composite out ≠ (.ok (), out') := by
    rw [dispatch, hhead]
    exact fun h => by cases h
  cases v using forms with
  | leaf v hv =>
    rw [isWalk_write.leaf t v type hv] at hw
    rcases dispatch_eq_ok hw with ⟨_, rfl⟩ | ⟨p, step, hprim, hstep, hw⟩ | ⟨c, hcomposite, _⟩
    · rfl
    · rw [hhead] at hprim
      cases hprim
      cases v <;> cases hstep
      cases hw
      simp
    · rw [hhead] at hcomposite
      cases hcomposite
  | opt | vec | record | variant =>
    rw [write] at hw
    exact absurd hw (hother _ _)

/-- Only a record is written as a record, field by field. -/
theorem write_record {v : Value} {fields : List (Field Ty)}
    (hhead : t.follow type = .ok (.composite (.record fields)))
    (hw : v.write t type out = (.ok (), out')) :
    ∃ values, eachField (writers t values) (sortBy (·.id) fields) out = (.ok (), out') := by
  cases v using forms with
  | record values =>
    rw [write, dispatch_composite hhead] at hw
    obtain ⟨sorted, mid, hstep, hw⟩ := Step.bind_eq_ok.mp hw
    obtain ⟨hsorted, rfl⟩ := Step.ofExcept_eq_ok.mp hstep
    rw [(extra_of_recordFields hsorted).1] at hw
    exact ⟨values, hw⟩
  | leaf v hv =>
    rw [isWalk_write.leaf t v type hv, dispatch_composite hhead] at hw
    cases hw
  | opt | vec | variant =>
    rw [write, dispatch_composite hhead] at hw
    cases hw

/-- Whatever is written as a type of no size, nothing is appended. -/
theorem write_of_zeroSized {v : Value} (h : t.isZeroSized limit type = true)
    (hw : v.write t type out = (.ok (), out')) : out' = out := by
  induction limit generalizing v type out out' with
  | zero => cases h
  | succ limit ih =>
    obtain ⟨_, ⟨⟩, hhead | hhead | ⟨fields, hhead, hfields⟩⟩ := Table.isZeroSized_eq_true h
    · exact write_null hhead hw
    · rw [write_reserved hhead] at hw
      cases hw
      rfl
    · obtain ⟨values, hw⟩ := write_record hhead hw
      refine eachField_writes_nothing (fun f hf w hlookup out out' hw => ?_) hw
      rw [lookup_writers] at hlookup
      obtain ⟨v, _, rfl⟩ := Option.map_eq_some_iff.mp hlookup
      exact ih (hfields f ((sortBy_perm (·.id) fields).mem_iff.mp hf)) hw

end Writing

section Reading
variable {allowance left : Nat} {bytes rest : List UInt8} {v : Value}

theorem readFields_takes_nothing {read : Ty → Decode Value} {fields : List (Field Ty)}
    {vs : List (UInt32 × Value)}
    (hread : ∀ f ∈ fields, ∀ {allowance left bytes rest v},
      read f.type allowance bytes = (.ok (v, left), rest) → rest = bytes)
    (h : readFields read fields allowance bytes = (.ok (vs, left), rest)) : rest = bytes := by
  induction fields generalizing allowance left bytes rest vs with
  | nil =>
    cases h
    rfl
  | cons f fields ih =>
    obtain ⟨⟨v, mid⟩, bytes₁, hfirst, h⟩ := Step.bind_eq_ok.mp h
    obtain ⟨⟨ws, left'⟩, bytes₂, hrest, h⟩ := Step.bind_eq_ok.mp h
    cases h
    rw [ih (fun g hg => hread g (List.mem_cons_of_mem _ hg)) hrest,
      hread f List.mem_cons_self hfirst]

/-- Reading a type of no size takes no bytes, at whatever depth. -/
theorem read_of_zeroSized (h : t.isZeroSized limit type = true)
    (hr : read t k type allowance bytes = (.ok (v, left), rest)) : rest = bytes := by
  induction limit generalizing k type allowance left bytes rest v with
  | zero => cases h
  | succ limit ih =>
    cases k with
    | zero => cases hr
    | succ k =>
      obtain ⟨_, ⟨⟩, hhead | hhead | ⟨fields, hhead, hfields⟩⟩ := Table.isZeroSized_eq_true h
      · rw [read, hhead] at hr
        cases hr
        rfl
      · rw [read, hhead] at hr
        cases hr
        rfl
      · rw [read, hhead, Step.ofExcept_ok_bind] at hr
        obtain ⟨⟨vs, left'⟩, bytes₁, hvs, hr⟩ := Step.bind_eq_ok.mp hr
        cases hr
        refine readFields_takes_nothing (fun f hf => ?_) hvs
        exact ih (hfields f ((sortBy_perm (·.id) fields).mem_iff.mp hf))

end Reading

section Taking

/-- What is taken first and what is taken afterwards both count. -/
theorem streams_bind_add {α β : Type} {m n : Nat} {x : Reader α} {f : α → Reader β}
    (hx : Streams m x) (hf : ∀ a, Streams n (f a)) : Streams (m + n) (x >>= f) := by
  refine ⟨fun h => ?_, (hx.any.bind fun a => (hf a).any).alike⟩
  obtain ⟨a, mid, hmid, h⟩ := Step.bind_eq_ok.mp h
  have hfirst := hx.taken hmid
  have hsecond := (hf a).taken h
  omega

theorem streams_fields_least {read : Ty → Decode Value} {least : Ty → Nat}
    (h : ∀ type allowance, Streams (least type) (read type allowance)) (fields : List (Field Ty))
    (allowance : Nat) :
    Streams (fields.map fun f => least f.type).sum (readFields read fields allowance) := by
  induction fields generalizing allowance with
  | nil => exact .pure _
  | cons f fields ih => exact streams_bind_add (h f.type allowance) fun p => (ih p.2).map

/-- A record takes a byte where one of its fields does. -/
theorem leastBytes_record {fields : List (Field Ty)}
    (hhead : t.follow type = .ok (.composite (.record fields))) :
    t.leastBytes (limit + 1) type ≤ (fields.map fun f => t.leastBytes limit f.type).sum := by
  rw [Table.leastBytes, Table.isZeroSized_record hhead]
  split_ifs with hall
  · exact Nat.zero_le _
  · obtain ⟨f, hf, hsized⟩ : ∃ f ∈ fields, ¬ t.isZeroSized limit f.type = true := by simpa using hall
    have hone : t.leastBytes limit f.type = 1 := if_neg hsized
    exact hone ▸ List.le_sum_of_mem (List.mem_map_of_mem hf)

/-- Wherever a type is read within no more levels than it was asked about, a value takes a byte unless
the type is of no size: where the question was broken off, the reader gives up as well. -/
theorem streams_read_least (hle : limit ≤ k) (type : Ty) (allowance : Nat) :
    Streams (t.leastBytes k type) (read t limit type allowance) := by
  induction limit generalizing type allowance k with
  | zero => exact .fail .tooDeep
  | succ limit ih =>
    obtain ⟨k, rfl⟩ : ∃ n, k = n + 1 := ⟨k - 1, by omega⟩
    have hany := streams_read t limit
    have hone {x : Reader (Value × Nat)} (hx : Streams 1 x) : Streams (t.leastBytes (k + 1) type) x :=
      hx.weaken Table.leastBytes_le
    cases hhead : t.follow type with
    | error e =>
      rw [read, hhead]
      exact .fail e
    | ok head =>
      rw [read, hhead, Step.ofExcept_ok_bind]
      cases head with
      | prim p =>
        rw [Table.leastBytes_prim hhead]
        exact p.streams_reader.map
      | composite c =>
        cases c with
        | record fields =>
          refine .weaken ?_ (leastBytes_record hhead)
          rw [← ((sortBy_perm (·.id) fields).map fun f => t.leastBytes k f.type).sum_eq]
          exact (streams_fields_least (fun type => ih (by omega) type) _ allowance).map
        | opt inner =>
          refine hone ((Reader.streams_flag _).bind fun present => ?_)
          split
          · exact (hany inner allowance).map
          · exact .pure _
        | vec inner =>
          refine hone ?_
          dsimp only
          cases t.follow inner with
          | error e => exact .fail e
          | ok head =>
            rw [Step.ofExcept_ok_bind]
            split
            · exact Reader.streams_blob.map
            · refine Reader.streams_varUInt64.bind fun count => ?_
              refine (Streams.ofExcept _).bind fun zero => ?_
              refine (streams_charge zero _ allowance).bind fun left => ?_
              exact (streams_items (hany inner) _ [] left).map
        | variant fields =>
          refine hone (Reader.streams_varUInt64.bind fun tag => ?_)
          dsimp only
          split
          · exact .fail _
          · exact (hany _ allowance).map
        | func args results modes => exact hone streams_readFunc.map
        | service methods => exact hone streams_readReference.map
        | future opcode payload => exact hone Reader.streams_blob.map

end Taking

/-- Takes elements of no size out of the allowance, and asks nothing of the bytes that are left. -/
def chargeUnchecked (zeroSized : Bool) (count allowance : Nat) : Reader Nat :=
  if zeroSized then
    if count ≤ allowance then pure (allowance - count) else Step.fail .tooManyElements
  else pure allowance

/-- Reads a value where the elements of a `vec` are charged in a given way before they are read. -/
def readCharging (charge : Bool → Nat → Nat → Reader Nat) (table : Table) : Nat → Ty → Decode Value
  | 0, _, _ => Step.fail .tooDeep
  | limit + 1, type, allowance => do
    match ← Step.ofExcept (table.follow type) with
    | .prim p => return (← p.reader, allowance)
    | .composite (.opt inner) =>
      if ← Reader.presence then
        let (v, allowance) ← readCharging charge table limit inner allowance
        return (.opt (some v), allowance)
      else return (.opt none, allowance)
    | .composite (.vec inner) =>
      if (← Step.ofExcept (table.follow inner)).isPrim .nat8 then
        return (.blob (← Reader.blob), allowance)
      else
        let count := (← Reader.varUInt64).toNat
        let zeroSized ← Step.ofExcept (table.zeroSized (maxDepth + 1) inner)
        let allowance ← charge zeroSized count allowance
        let (vs, allowance) ← readItems (readCharging charge table limit inner) count [] allowance
        return (.vec vs, allowance)
    | .composite (.record fields) =>
      let (vs, allowance) ← readFields (readCharging charge table limit) (sortBy (·.id) fields) allowance
      return (.record (Assoc.ofList vs), allowance)
    | .composite (.variant fields) =>
      let tag := (← Reader.varUInt64).toNat
      match fields.find? (·.id.toNat == tag) with
      | none => Step.fail (.unknownTag tag)
      | some f =>
        let (v, allowance) ← readCharging charge table limit f.type allowance
        return (.variant f.id v, allowance)
    | .composite (.func ..) => return (.func (← readFunc), allowance)
    | .composite (.service _) => return (.service (← readReference), allowance)
    | .composite (.future ..) => return (.future (← Reader.blob), allowance)

theorem readCharging_charge (limit : Nat) : readCharging charge t limit = read t limit := by
  induction limit with
  | zero => rfl
  | succ limit ih =>
    funext type allowance
    rw [readCharging, ih]
    rfl

section Unchecked
variable {charge : Bool → Nat → Nat → Reader Nat}

theorem readItems_yieldAlike {item item' : Decode Value}
    (h : ∀ allowance, YieldAlike (item allowance) (item' allowance)) (count : Nat) (done : List Value)
    (allowance : Nat) :
    YieldAlike (readItems item count done allowance) (readItems item' count done allowance) := by
  induction count generalizing done allowance with
  | zero => exact .refl _
  | succ count ih =>
    rw [readItems_succ, readItems_succ]
    exact (h allowance).bind fun p => ih (p.1 :: done) p.2

theorem readFields_yieldAlike {read read' : Ty → Decode Value}
    (h : ∀ type allowance, YieldAlike (read type allowance) (read' type allowance))
    (fields : List (Field Ty)) (allowance : Nat) :
    YieldAlike (readFields read fields allowance) (readFields read' fields allowance) := by
  induction fields generalizing allowance with
  | nil => exact .refl _
  | cons f fields ih => exact (h f.type allowance).bind fun p => (ih p.2).map

/-- As many elements as were announced take a byte each. -/
theorem length_of_readItems {item : Decode Value} (h : ∀ allowance, Streams 1 (item allowance))
    {count allowance left : Nat} {done vs : List Value} {bytes rest : List UInt8}
    (hr : readItems item count done allowance bytes = (.ok (vs, left), rest)) :
    rest.length + count ≤ bytes.length := by
  induction count generalizing done allowance bytes with
  | zero =>
    cases hr
    exact Nat.le_refl _
  | succ count ih =>
    rw [readItems_succ] at hr
    obtain ⟨p, mid, hfirst, hr⟩ := Step.bind_eq_ok.mp hr
    have htaken := (h allowance).taken hfirst
    have hrest := ih hr
    omega

/-- The elements that a check turns away could not have been read. -/
theorem charged_yieldAlike {inner : Ty} {zero : Bool} {item : Decode Value}
    {f : List Value × Nat → Reader (Value × Nat)} (hlimit : limit ≤ maxDepth + 1)
    (hzero : t.zeroSized (maxDepth + 1) inner = .ok zero)
    (hitem : ∀ allowance, YieldAlike (item allowance) (read t limit inner allowance))
    (count allowance : Nat) :
    YieldAlike (chargeUnchecked zero count allowance >>= fun left => readItems item count [] left >>= f)
      (Value.charge zero count allowance >>= fun left =>
        readItems (read t limit inner) count [] left >>= f) := by
  have hitems (left : Nat) : YieldAlike (readItems item count [] left >>= f)
      (readItems (read t limit inner) count [] left >>= f) :=
    (readItems_yieldAlike hitem count [] left).bind fun _ => .refl _
  cases zero with
  | true => exact Step.YieldAlike.bind (.refl _) hitems
  | false =>
    intro bytes rest r
    refine Iff.trans (@hitems allowance bytes rest r) ?_
    rw [Step.bind_eq_ok (x := Value.charge false count allowance)]
    constructor
    · intro hr
      obtain ⟨vs, mid, hvs, _⟩ := Step.bind_eq_ok.mp hr
      have hleast (allowance : Nat) : Streams 1 (read t limit inner allowance) := by
        have hsized := streams_read_least (t := t) hlimit inner allowance
        rwa [Table.leastBytes, Table.isZeroSized_eq hzero] at hsized
      have hcount := length_of_readItems hleast hvs
      exact ⟨allowance, bytes, charge_eq_ok.mpr ⟨rfl, by omega, rfl⟩, hr⟩
    · rintro ⟨left, mid, hcharge, hr⟩
      obtain ⟨rfl, -, rfl⟩ := charge_eq_ok.mp hcharge
      exact hr

/-- Without the look at the bytes that are left, the same values are read from the same bytes. -/
theorem readCharging_yieldAlike (hlimit : limit ≤ maxDepth + 1) (type : Ty) (allowance : Nat) :
    YieldAlike (readCharging chargeUnchecked t limit type allowance) (read t limit type allowance) := by
  induction limit generalizing type allowance with
  | zero => exact .refl _
  | succ limit ih =>
    have hread := ih (by omega)
    rw [readCharging, read]
    refine (Step.YieldAlike.refl _).bind fun head => ?_
    cases head with
    | prim p => exact .refl _
    | composite c =>
      cases c with
      | record fields => exact (readFields_yieldAlike hread _ allowance).map
      | opt inner =>
        refine (Step.YieldAlike.refl _).bind fun present => ?_
        split
        · exact (hread inner allowance).map
        · exact .refl _
      | vec inner =>
        refine (Step.YieldAlike.refl _).bind fun head => ?_
        split
        · exact .refl _
        · refine (Step.YieldAlike.refl _).bind fun count => ?_
          cases hzero : t.zeroSized (maxDepth + 1) inner with
          | error e => exact .refl _
          | ok zero =>
            exact charged_yieldAlike (by omega) hzero (hread inner) count.toNat allowance
      | variant fields =>
        refine (Step.YieldAlike.refl _).bind fun tag => ?_
        dsimp only
        cases fields.find? (·.id.toNat == tag.toNat) with
        | none => exact .refl _
        | some f => exact (hread f.type allowance).map
      | func | service | future => exact .refl _

end Unchecked

/-- What `zeroSized` tells is so, and the look at the bytes that are left turns away nothing that could
be read. Whatever is written as a type of no size takes no bytes, and reading it takes none; reading any
other type takes one at least, at every depth. So without that look the same values are read, with the
same rest and the same allowance left, and what was refused is still refused. -/
theorem zeroSized_decides (t : Table) (type : Ty) :
    (t.zeroSized (maxDepth + 1) type = .ok true →
      (∀ (v : Value) (out out' : Array UInt8), v.write t type out = (.ok (), out') → out' = out) ∧
      ∀ (limit allowance left : Nat) (v : Value) (bytes rest : List UInt8),
        read t limit type allowance bytes = (.ok (v, left), rest) → rest = bytes) ∧
    (t.zeroSized (maxDepth + 1) type = .ok false →
      ∀ limit ≤ maxDepth + 1, ∀ (allowance left : Nat) (v : Value) (bytes rest : List UInt8),
        read t limit type allowance bytes = (.ok (v, left), rest) → rest.length < bytes.length) ∧
    (∀ limit, readCharging charge t limit type = read t limit type) ∧
    ∀ limit ≤ maxDepth + 1, ∀ (allowance : Nat) (r : Value × Nat) (bytes rest : List UInt8),
      readCharging chargeUnchecked t limit type allowance bytes = (.ok r, rest) ↔
        read t limit type allowance bytes = (.ok r, rest) := by
  refine ⟨fun h => ⟨fun v out out' hw => write_of_zeroSized (Table.isZeroSized_eq h) hw,
    fun limit allowance left v bytes rest hr => read_of_zeroSized (Table.isZeroSized_eq h) hr⟩,
    ?_, ?_, ?_⟩
  · intro h limit hlimit allowance left v bytes rest hr
    have htaken := (streams_read_least hlimit type allowance).taken hr
    rw [Table.leastBytes, Table.isZeroSized_eq h, if_neg Bool.false_ne_true] at htaken
    exact htaken
  · exact fun limit => congrFun (readCharging_charge limit) type
  · intro limit hlimit allowance r bytes rest
    exact @readCharging_yieldAlike t limit hlimit type allowance bytes rest r

def unitType : Ty :=
  .composite (.record [⟨1, none, .prim .reserved⟩, ⟨0, none, .prim .null⟩])

/-- Two such records in a vector: the count is read, and nothing else. -/
theorem zeroSized_decides_unit :
    (∀ (v : Value) (out out' : Array UInt8), v.write {} unitType out = (.ok (), out') → out' = out) ∧
    read {} 3 (.composite (.vec unitType)) 5 [2, 9] = (.ok (.vec
      [.record [(0, .null), (1, .reserved)], .record [(0, .null), (1, .reserved)]], 3), [9]) ∧
    [9].length < [2, 9].length := by
  have hvec : read {} 3 (.composite (.vec unitType)) 5 [2, 9] = (.ok (.vec
      [.record [(0, .null), (1, .reserved)], .record [(0, .null), (1, .reserved)]], 3), [9]) := by cbv
  exact ⟨((zeroSized_decides {} unitType).1 (by cbv)).1, hvec,
    (zeroSized_decides {} (.composite (.vec unitType))).2.1 (by cbv) 3 (by decide) _ _ _ _ _ hvec⟩

end Value
end Didl
