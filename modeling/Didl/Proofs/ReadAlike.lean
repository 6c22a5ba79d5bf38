import Didl.Message
import Didl.Proofs.Agreement
import Didl.Proofs.Steps

namespace Didl.Table
variable {left right : Table} {R : Ty → Ty → Prop} {a b : Ty}

/-- What related types look through to, former by former. Fields lie side by side in the order of
their numbers. -/
inductive HeadsAlike (R : Ty → Ty → Prop) : Head → Head → Prop
  | prim (p : Prim) : HeadsAlike R (.prim p) (.prim p)
  | opt {x y : Ty} : R x y → HeadsAlike R (.composite (.opt x)) (.composite (.opt y))
  | vec {x y : Ty} : R x y → HeadsAlike R (.composite (.vec x)) (.composite (.vec y))
  | record {fs gs : List (Field Ty)} :
      List.Forall₂ (Field.Rel R) (sortBy (·.id) fs) (sortBy (·.id) gs) →
      HeadsAlike R (.composite (.record fs)) (.composite (.record gs))
  | variant {fs gs : List (Field Ty)} :
      List.Forall₂ (Field.Rel R) (sortBy (·.id) fs) (sortBy (·.id) gs) →
      HeadsAlike R (.composite (.variant fs)) (.composite (.variant gs))
  | func {ts rs us ss : List Ty} {modes modes' : List Mode} :
      HeadsAlike R (.composite (.func ts rs modes)) (.composite (.func us ss modes'))
  | service {ms ms' : List (Method Ty)} :
      HeadsAlike R (.composite (.service ms)) (.composite (.service ms'))
  | future {opcode opcode' : Int64} {payload payload' : List UInt8} :
      HeadsAlike R (.composite (.future opcode payload)) (.composite (.future opcode' payload'))

/-- Related types look through their names to heads that are related in turn. -/
theorem follow_of_bisimulation
    (hR : IsBisimulation left.canonicalFormer right.canonicalFormer R) (h : R a b) :
    ∃ x y, left.follow a = .ok x ∧ right.follow b = .ok y ∧ HeadsAlike R x y := by
  obtain ⟨f, g, hf, hg, hfg⟩ := hR a b h
  obtain ⟨f', hf', rfl⟩ := Option.map_eq_some_iff.mp hf
  obtain ⟨g', hg', rfl⟩ := Option.map_eq_some_iff.mp hg
  obtain ⟨x, hx, rfl⟩ := former_eq_some.mp hf'
  obtain ⟨y, hy, rfl⟩ := former_eq_some.mp hg'
  refine ⟨x, y, hx, hy, ?_⟩
  cases x with
  | prim p =>
    cases y with
    | composite d => cases hfg
    | prim q =>
      cases hfg
      exact .prim p
  | composite c =>
    cases y with
    | prim q => cases hfg
    | composite d =>
      cases hfg with
      | composite hcd =>
        cases c <;> cases d <;> cases hcd <;> constructor <;> assumption

theorem follow_alike (hR : IsBisimulation left.canonicalFormer right.canonicalFormer R) (h : R a b)
    {x : Head} (hx : left.follow a = .ok x) : ∃ y, right.follow b = .ok y ∧ HeadsAlike R x y := by
  obtain ⟨x', y, hx', hy, hxy⟩ := follow_of_bisimulation hR h
  rw [hx] at hx'
  cases hx'
  exact ⟨y, hy, hxy⟩

def isZeroSized (t : Table) (limit : Nat) (type : Ty) : Bool :=
  (t.zeroSized limit type).toOption.getD false

theorem isZeroSized_eq {t : Table} {limit : Nat} {type : Ty} {v : Bool}
    (h : t.zeroSized limit type = .ok v) : t.isZeroSized limit type = v := by
  simp [isZeroSized, h, Except.toOption]

theorem allFields_eq {ask : Ty → Except Fault Bool} {size : Ty → Bool} {fs : List (Field Ty)}
    (h : ∀ f ∈ fs, ask f.type = .ok (size f.type)) :
    zeroSized.allFields ask fs = .ok (fs.all fun f => size f.type) := by
  induction fs with
  | nil => rfl
  | cons f fs ih =>
    rw [zeroSized.allFields, h f List.mem_cons_self, List.all_cons]
    cases hf : size f.type with
    | true =>
      rw [Bool.true_and]
      exact ih fun g hg => h g (List.mem_cons_of_mem _ hg)
    | false => rfl

/-- Related types are both of zero size or both not, and no name is missing on the way. -/
theorem zeroSized_alike (hR : IsBisimulation left.canonicalFormer right.canonicalFormer R)
    (h : R a b) (limit : Nat) :
    ∃ v, left.zeroSized limit a = .ok v ∧ right.zeroSized limit b = .ok v := by
  induction limit generalizing a b with
  | zero => exact ⟨false, rfl, rfl⟩
  | succ limit ih =>
    obtain ⟨x, y, hx, hy, hxy⟩ := follow_of_bisimulation hR h
    simp only [zeroSized, hx, hy, bind, Except.bind]
    cases hxy with
    | prim p => cases p <;> exact ⟨_, rfl, rfl⟩
    | opt | vec | variant | func | service | future => exact ⟨false, rfl, rfl⟩
    | @record fs gs hfg =>
      have hleft : ∀ f ∈ fs, left.zeroSized limit f.type = .ok (left.isZeroSized limit f.type) := by
        intro f hf
        obtain ⟨g, _, hr⟩ := exists_of_mem_right hfg.flip ((sortBy_perm (·.id) fs).mem_iff.mpr hf)
        obtain ⟨v, hv, _⟩ := ih hr.2
        rw [hv, isZeroSized_eq hv]
      have hright : ∀ g ∈ gs, right.zeroSized limit g.type = .ok (right.isZeroSized limit g.type) := by
        intro g hg
        obtain ⟨f, _, hr⟩ := exists_of_mem_right hfg ((sortBy_perm (·.id) gs).mem_iff.mpr hg)
        obtain ⟨v, _, hv⟩ := ih hr.2
        rw [hv, isZeroSized_eq hv]
      refine ⟨_, allFields_eq hleft, ?_⟩
      simp only [allFields_eq hright, Except.ok.injEq]
      rw [← (sortBy_perm (·.id) fs).all_eq, ← (sortBy_perm (·.id) gs).all_eq]
      generalize sortBy (·.id) fs = xs at hfg
      generalize sortBy (·.id) gs = ys at hfg
      induction hfg with
      | nil => rfl
      | cons hr _ ihall =>
        obtain ⟨v, hv, hv'⟩ := ih hr.2
        rw [List.all_cons, List.all_cons, ihall, isZeroSized_eq hv, isZeroSized_eq hv']

end Didl.Table

namespace Didl.Value
variable {left right : Table} {R : Ty → Ty → Prop} {a b : Ty}

theorem readFields_alike {read read' : Ty → Decode Value} {fs gs : List (Field Ty)}
    (h : List.Forall₂ (Field.Rel R) fs gs) (hread : ∀ x y, R x y → read x = read' y) :
    readFields read fs = readFields read' gs := by
  induction h with
  | nil => rfl
  | cons hr _ ih =>
    funext allowance
    rw [readFields, readFields, hread _ _ hr.2, hr.1, ih]

theorem find?_alike {fs gs : List (Field Ty)} (h : List.Forall₂ (Field.Rel R) fs gs) (tag : Nat) :
    (fs.find? (·.id.toNat == tag) = none ∧ gs.find? (·.id.toNat == tag) = none) ∨
      ∃ f g, fs.find? (·.id.toNat == tag) = some f ∧ gs.find? (·.id.toNat == tag) = some g ∧
        f.Rel R g := by
  induction h with
  | nil => exact .inl ⟨rfl, rfl⟩
  | cons hr _ ih =>
    rename_i f g _ _ _
    rw [List.find?_cons, List.find?_cons, ← hr.1]
    cases f.id.toNat == tag with
    | true => exact .inr ⟨f, g, rfl, rfl, hr⟩
    | false => exact ih

theorem find?_sortBy_tag (fs : List (Field Ty)) (tag : Nat) :
    (sortBy (·.id) fs).find? (·.id.toNat == tag) = fs.find? (·.id.toNat == tag) := by
  apply sortBy_find?
  intro x y hx hy
  simp only [beq_iff_eq] at hx hy
  exact UInt32.toNat_inj.mp (hx.trans hy.symm)

/-- What a read does depends only on the trees that types stand for: at related types it gives the
same value or the same fault, the same allowance, and the same rest. -/
theorem read_alike (hR : IsBisimulation left.canonicalFormer right.canonicalFormer R) (h : R a b)
    (limit : Nat) : read left limit a = read right limit b := by
  induction limit generalizing a b with
  | zero => rfl
  | succ limit ih =>
    funext allowance
    obtain ⟨x, y, hx, hy, hxy⟩ := Table.follow_of_bisimulation hR h
    rw [read, read, hx, hy, Step.ofExcept_ok_bind, Step.ofExcept_ok_bind]
    cases hxy with
    | prim | func | service | future => rfl
    | opt hr => simp only [ih hr]
    | vec hr =>
      obtain ⟨x, y, hx, hy, hxy⟩ := Table.follow_of_bisimulation hR hr
      obtain ⟨v, hv, hv'⟩ := Table.zeroSized_alike hR hr (maxDepth + 1)
      have hprim : x.isPrim .nat8 = y.isPrim .nat8 := by cases hxy <;> rfl
      simp only [hx, hy, hv, hv', Step.ofExcept_ok_bind, hprim, ih hr]
    | record hfg => simp only [readFields_alike hfg fun _ _ hr => ih hr]
    | @variant fs gs hfg =>
      simp only
      congr 1
      funext tag
      rw [← find?_sortBy_tag fs, ← find?_sortBy_tag gs]
      rcases find?_alike hfg tag.toNat with ⟨hf, hg⟩ | ⟨f, g, hf, hg, hr⟩
      · simp only [hf, hg]
      · simp only [hf, hg, hr.1, ih hr.2]

/-- Nothing is added to the allowance, and a larger one changes nothing but what is left of it. -/
def Spends {α : Type} (d : Decode α) : Prop :=
  ∀ allowance bytes v left rest, d allowance bytes = (.ok (v, left), rest) →
    left ≤ allowance ∧ ∀ extra, d (allowance + extra) bytes = (.ok (v, left + extra), rest)

theorem spends_pure {α : Type} (a : α) : Spends fun allowance => pure (a, allowance) := by
  intro allowance bytes v left rest h
  cases h
  exact ⟨Nat.le_refl _, fun _ => rfl⟩

/-- A step that knows nothing of the allowance may come first. -/
theorem spends_bind {α β : Type} {x : Reader α} {d : α → Decode β} (hd : ∀ a, Spends (d a)) :
    Spends fun allowance => x >>= fun a => d a allowance := by
  intro allowance bytes v left rest h
  obtain ⟨a, bytes₁, hx, h⟩ := Step.bind_eq_ok.mp h
  obtain ⟨hle, hextra⟩ := hd a _ _ _ _ _ h
  exact ⟨hle, fun extra => (Step.bind_ok hx).trans (hextra extra)⟩

/-- One read after the other, the second with what the first one leaves. -/
theorem spends_then {α β : Type} {d : Decode α} {d' : α → Decode β} (hd : Spends d)
    (hd' : ∀ a, Spends (d' a)) : Spends fun allowance => d allowance >>= fun p => d' p.1 p.2 := by
  intro allowance bytes v left rest h
  obtain ⟨⟨a, mid⟩, bytes₁, hfirst, h⟩ := Step.bind_eq_ok.mp h
  obtain ⟨hle, hextra⟩ := hd _ _ _ _ _ hfirst
  obtain ⟨hle', hextra'⟩ := hd' a _ _ _ _ _ h
  exact ⟨Nat.le_trans hle' hle, fun extra => (Step.bind_ok (hextra extra)).trans (hextra' extra)⟩

theorem readItems_succ (item : Decode Value) (count : Nat) (done : List Value) (allowance : Nat) :
    readItems item (count + 1) done allowance =
      item allowance >>= fun p => readItems item count (p.1 :: done) p.2 := by
  funext bytes
  rw [readItems, Step.bind_apply]
  cases hitem : item allowance bytes with
  | mk r rest => cases r <;> simp only [hitem]

theorem spends_items {item : Decode Value} (hi : Spends item) (count : Nat) (done : List Value) :
    Spends (readItems item count done) := by
  induction count generalizing done with
  | zero => exact spends_pure done.reverse
  | succ count ih =>
    rw [funext (readItems_succ item count done)]
    exact spends_then hi fun v => ih (v :: done)

theorem spends_fields {read : Ty → Decode Value} (hr : ∀ type, Spends (read type))
    (fs : List (Field Ty)) : Spends (readFields read fs) := by
  induction fs with
  | nil => exact spends_pure []
  | cons f fs ih =>
    exact spends_then (hr f.type) fun v => spends_then ih fun vs => spends_pure ((f.id, v) :: vs)

theorem charge_apply (zeroSized : Bool) (count allowance : Nat) (bytes : List UInt8) :
    charge zeroSized count allowance bytes =
      (if zeroSized then
          if count ≤ allowance then .ok (allowance - count) else .error .tooManyElements
        else if count ≤ bytes.length then .ok allowance else .error .endOfInput, bytes) := by
  cases zeroSized with
  | true =>
    rw [charge, if_pos rfl, if_pos rfl]
    split <;> rfl
  | false =>
    simp only [charge, Reader.hasLeft, Step.bind_apply, Reader.holds_eq, Bool.false_eq_true, if_false,
      decide_eq_true_eq]
    split <;> rfl

theorem charge_eq_ok {zeroSized : Bool} {count allowance left : Nat} {bytes rest : List UInt8} :
    charge zeroSized count allowance bytes = (.ok left, rest) ↔ bytes = rest ∧
      if zeroSized then count + left = allowance else count ≤ bytes.length ∧ left = allowance := by
  rw [charge_apply, Prod.mk.injEq, and_comm]
  refine and_congr_right fun _ => ?_
  cases zeroSized with
  | true =>
    simp only [if_true]
    split
    · rw [Except.ok.injEq]
      omega
    · exact iff_of_false nofun (by omega)
  | false =>
    simp only [Bool.false_eq_true, if_false]
    split
    · rw [Except.ok.injEq, eq_comm, and_iff_right ‹_›]
    · exact iff_of_false nofun fun h => ‹¬ _› h.1

theorem spends_charge {α : Type} {d : Decode α} (hd : Spends d) (zeroSized : Bool) (count : Nat) :
    Spends fun allowance => charge zeroSized count allowance >>= d := by
  intro allowance bytes v left rest h
  obtain ⟨mid, _, hcharge, hrest⟩ := Step.bind_eq_ok.mp h
  obtain ⟨rfl, hpaid⟩ := charge_eq_ok.mp hcharge
  obtain ⟨hle, hextra⟩ := hd _ _ _ _ _ hrest
  have hmore (extra : Nat) : charge zeroSized count (allowance + extra) bytes =
      (.ok (mid + extra), bytes) := by
    refine charge_eq_ok.mpr ⟨rfl, ?_⟩
    cases zeroSized with
    | true => exact (Nat.add_assoc ..).symm.trans (congrArg (· + extra) hpaid)
    | false => exact ⟨hpaid.1, congrArg (· + extra) hpaid.2⟩
  refine ⟨?_, fun extra => (Step.bind_ok (hmore extra)).trans (hextra extra)⟩
  split at hpaid <;> omega

theorem spends_fail {α : Type} (e : Fault) : Spends fun _ => (Step.fail e : Reader (α × Nat)) := by
  intro allowance bytes v left rest h
  cases h

theorem spends_read (table : Table) (limit : Nat) (type : Ty) : Spends (read table limit type) := by
  induction limit generalizing type with
  | zero => exact spends_fail .tooDeep
  | succ limit ih =>
    change Spends fun allowance => read table (limit + 1) type allowance
    cases hhead : table.follow type with
    | error e =>
      simp only [read, hhead, Step.ofExcept_error_bind]
      exact spends_fail e
    | ok head =>
      simp only [read, hhead, Step.ofExcept_ok_bind]
      cases head with
      | prim p => exact spends_bind fun v => spends_pure v
      | composite c =>
        cases c with
        | opt inner =>
          apply spends_bind
          intro present
          cases present with
          | true => exact spends_then (ih inner) fun v => spends_pure (Value.opt (some v))
          | false => exact spends_pure (Value.opt none)
        | vec inner =>
          apply spends_bind
          intro x
          by_cases hnat8 : x.isPrim .nat8 = true
          · simp only [if_pos hnat8]
            exact spends_bind fun bytes => spends_pure (Value.blob bytes)
          · simp only [if_neg hnat8]
            refine spends_bind fun count => spends_bind fun zeroSized => spends_charge ?_ _ _
            exact spends_then (spends_items (ih inner) _ []) fun vs => spends_pure (Value.vec vs)
        | record fields =>
          exact spends_then (spends_fields ih _) fun vs => spends_pure (Value.record (Assoc.ofList vs))
        | variant fields =>
          apply spends_bind
          intro tag
          cases hfind : fields.find? (·.id.toNat == tag.toNat) with
          | none => exact spends_fail _
          | some f =>
            exact spends_then (ih f.type) fun v => spends_pure (Value.variant f.id v)
        | func args results modes => exact spends_bind fun ref => spends_pure (Value.func ref)
        | service methods => exact spends_bind fun id => spends_pure (Value.service id)
        | future opcode payload => exact spends_bind fun bytes => spends_pure (Value.future bytes)

end Didl.Value

namespace Didl.Message
open Value

theorem run_alike {left right : Table} {a b : Ty}
    (h : left.equivalent a right b = some (.ok true)) :
    Value.reader left a = Value.reader right b := by
  obtain ⟨R, hR, hab⟩ := Table.exists_bisimulation_of_equivalent h
  unfold Value.reader
  rw [read_alike hR.canonical hab]

theorem reader_of_read {table : Table} {type : Ty} {allowance left : Nat} {v : Value}
    {bytes rest : List UInt8} (ha : allowance ≤ maxZeroSized)
    (h : Value.read table (maxDepth + 1) type allowance bytes = (.ok (v, left), rest)) :
    Value.reader table type bytes = (.ok v, rest) := by
  obtain ⟨_, hextra⟩ := spends_read table (maxDepth + 1) type _ _ _ _ _ h
  have hfull := hextra (maxZeroSized - allowance)
  rw [Nat.add_sub_cancel' ha] at hfull
  exact Step.bind_ok hfull

/-- A payload read against the expected types themselves: value after value, and nothing after the
last. Where `reserved` is expected, the message's own type tells only where the next value begins. -/
inductive ReadsAs (env table : Table) :
    List Ty → List Ty → List UInt8 → List Value → Prop
  | nil : ReadsAs env table [] [] [] []
  | reserved {type expected : Ty} {types rest : List Ty} {bytes bytes' : List UInt8} {v : Value}
      {vs : List Value} :
      env.follow expected = .ok (.prim .reserved) →
      Value.reader table type bytes = (.ok v, bytes') →
      ReadsAs env table types rest bytes' vs →
      ReadsAs env table (type :: types) (expected :: rest) bytes (.reserved :: vs)
  | value {type expected : Ty} {types rest : List Ty} {bytes bytes' : List UInt8} {head : Head}
      {v : Value} {vs : List Value} :
      env.follow expected = .ok head → head.isPrim .reserved = false →
      Value.reader env expected bytes = (.ok v, bytes') →
      ReadsAs env table types rest bytes' vs →
      ReadsAs env table (type :: types) (expected :: rest) bytes (v :: vs)

theorem bind_eq_some_ok {α β : Type} {x : ExceptT Fault Option α} {f : α → ExceptT Fault Option β}
    {b : β} : (x >>= f) = some (.ok b) ↔ ∃ a, x = some (.ok a) ∧ f a = some (.ok b) := by
  constructor
  · intro h
    rcases x with _ | _ | a
    · cases h
    · cases h
    · exact ⟨a, rfl, h⟩
  · rintro ⟨a, rfl, h⟩
    exact h

theorem expectAll_eq_ok {env table : Table} {type expected : Ty} {v : Value}
    {rest : List ((Ty × Value) × Ty)} {values : List Value}
    (h : expectAll env table (((type, v), expected) :: rest) = some (.ok values)) :
    ∃ head vs, env.follow expected = .ok head ∧ expectAll env table rest = some (.ok vs) ∧
      ((head.isPrim .reserved = true ∧ values = .reserved :: vs) ∨
        head.isPrim .reserved = false ∧ env.equivalent expected table type = some (.ok true) ∧
          values = v :: vs) := by
  rw [expectAll] at h
  obtain ⟨head, hhead, h⟩ := bind_eq_some_ok.mp h
  have hfollow : env.follow expected = .ok head := Option.some.inj hhead
  split at h
  · rename_i hreserved
    obtain ⟨vs, hvs, h⟩ := bind_eq_some_ok.mp h
    cases h
    exact ⟨head, vs, hfollow, hvs, .inl ⟨hreserved, rfl⟩⟩
  · rename_i hnot
    obtain ⟨verdict, heq, h⟩ := bind_eq_some_ok.mp h
    split at h
    · rename_i htrue
      obtain ⟨vs, hvs, h⟩ := bind_eq_some_ok.mp h
      cases h
      exact ⟨head, vs, hfollow, hvs, .inr ⟨by simpa using hnot, htrue ▸ heq, rfl⟩⟩
    · cases h

theorem readsAs_of_readAll {env table : Table} {types expected : List Ty} {allowance left : Nat}
    {bytes : List UInt8} {args : List (Ty × Value)} {values : List Value}
    (ha : allowance ≤ maxZeroSized) (hl : args.length = expected.length)
    (hr : readAll table types allowance bytes = (.ok (args, left), []))
    (he : expectAll env table (args.zip expected) = some (.ok values)) :
    ReadsAs env table types expected bytes values := by
  induction types generalizing expected allowance bytes args values with
  | nil =>
    cases hr
    obtain rfl := List.length_eq_zero_iff.mp hl.symm
    cases he
    exact .nil
  | cons type types ih =>
    obtain ⟨⟨v, mid⟩, bytes₁, hv, hr⟩ := Step.bind_eq_ok.mp hr
    obtain ⟨⟨vs, last⟩, bytes₂, hvs, hr⟩ := Step.bind_eq_ok.mp hr
    cases hr
    cases expected with
    | nil => cases hl
    | cons e expected =>
      have hmid := (spends_read table (maxDepth + 1) type _ _ _ _ _ hv).1
      have hreader := reader_of_read ha hv
      obtain ⟨head, ws, hhead, hws, ⟨hreserved, rfl⟩ | ⟨hnot, heq, rfl⟩⟩ := expectAll_eq_ok he
      · have hrest := ih (Nat.le_trans hmid ha) (by simpa using hl) hvs hws
        cases head with
        | prim p =>
          obtain rfl : p = .reserved := by simpa [Head.isPrim] using hreserved
          exact .reserved hhead hreader hrest
        | composite c => cases hreserved
      · have hrest := ih (Nat.le_trans hmid ha) (by simpa using hl) hvs hws
        rw [← run_alike heq] at hreader
        exact .value hhead hnot hreader hrest

theorem reader_of_decodeWithTable {bytes : List UInt8} {message : Table × List (Ty × Value)}
    (h : decodeWithTable bytes = .ok message) : reader bytes = (.ok message, []) := by
  unfold decodeWithTable at h
  split at h
  · rename_i hr
    cases h
    exact hr
  · cases h
  · cases h

theorem decodeWithTable_eq_ok {bytes : List UInt8} {table : Table} {args : List (Ty × Value)}
    (h : decodeWithTable bytes = .ok (table, args)) :
    ∃ types payload left, Table.readPrelude bytes = (.ok (table, types), payload) ∧
      readAll table types maxZeroSized payload = (.ok (args, left), []) := by
  obtain ⟨⟨t, types⟩, payload, hprelude, hr⟩ := Step.bind_eq_ok.mp (reader_of_decodeWithTable h)
  obtain ⟨⟨vs, left⟩, rest, hvs, hr⟩ := Step.bind_eq_ok.mp hr
  cases hr
  exact ⟨types, payload, left, hprelude, hvs⟩

theorem decodeWithTable_of_decode {bytes : List UInt8} {args : List (Ty × Value)}
    (h : decode bytes = .ok args) : ∃ t, decodeWithTable bytes = .ok (t, args) := by
  unfold decode at h
  cases hdecode : decodeWithTable bytes with
  | error e =>
    rw [hdecode] at h
    cases h
  | ok message =>
    rw [hdecode] at h
    cases h
    exact ⟨message.1, rfl⟩

theorem decodeAs_eq_ok {env : Table} {expected : List Ty} {bytes : List UInt8} {values : List Value}
    (h : decodeAs env expected bytes = some (.ok values)) :
    ∃ table args, decodeWithTable bytes = .ok (table, args) ∧ args.length = expected.length ∧
      expectAll env table (args.zip expected) = some (.ok values) := by
  obtain ⟨⟨table, args⟩, hdecode, h⟩ := bind_eq_some_ok.mp h
  dsimp only at h
  split at h
  · cases h
  · rename_i hlength
    exact ⟨table, args, Option.some.inj hdecode, by simpa using hlength, h⟩

/-- Types found equivalent read alike: from every place of every bytes they give the same value or
the same fault, and leave the same place. So the values that are admitted for expected types are
those that the payload holds when it is read as the expected types. -/
theorem equivalent_readsAlike (left right : Table) (a b : Ty) (env : Table) (expected : List Ty)
    (bytes : List UInt8) (values : List Value) :
    (left.equivalent a right b = some (.ok true) →
      ∀ c : Cursor, c.run (Value.reader left a) = c.run (Value.reader right b)) ∧
    (decodeAs env expected bytes = some (.ok values) →
      ∃ table types payload, Table.readPrelude bytes = (.ok (table, types), payload) ∧
        ReadsAs env table types expected payload values) := by
  constructor
  · intro h c
    rw [run_alike h]
  · intro h
    obtain ⟨table, args, hdecode, hlength, hexpect⟩ := decodeAs_eq_ok h
    obtain ⟨types, payload, left, hprelude, hread⟩ := decodeWithTable_eq_ok hdecode
    exact ⟨table, types, payload, hprelude,
      readsAs_of_readAll (Nat.le_refl _) hlength hread hexpect⟩

/-- A recursive type under a name of its own and under the name that reading gives it. -/
theorem equivalent_readsAlike_recursive :
    (∀ c : Cursor, c.run (Value.reader ⟨[.opt (.named "a")], [("a", 0)]⟩ (.named "a")) =
      c.run (Value.reader ⟨[.opt (.named "b")], [("b", 0)]⟩ (.named "b"))) ∧
    ∃ table types payload,
      Table.readPrelude [0x44, 0x49, 0x44, 0x4c, 1, 0x6e, 0, 1, 0, 1, 0] =
        (.ok (table, types), payload) ∧
      ReadsAs ⟨[.opt (.named "a")], [("a", 0)]⟩ table types [.named "a"] payload
        [.opt (some (.opt none))] := by
  have h := equivalent_readsAlike ⟨[.opt (.named "a")], [("a", 0)]⟩
    ⟨[.opt (.named "b")], [("b", 0)]⟩ (.named "a") (.named "b") ⟨[.opt (.named "a")], [("a", 0)]⟩
    [.named "a"] [0x44, 0x49, 0x44, 0x4c, 1, 0x6e, 0, 1, 0, 1, 0] [.opt (some (.opt none))]
  exact ⟨h.1 (by rfl), h.2 (by cbv)⟩

end Didl.Message
