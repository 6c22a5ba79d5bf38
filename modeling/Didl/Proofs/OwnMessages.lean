import Didl.Proofs.Compiling
import Didl.Proofs.Descending
import Didl.Proofs.MessageRoundTrip
import Didl.Proofs.Sharing
import Didl.Proofs.Verdict
import Didl.Proofs.WellFormed

namespace Didl.Table
open Rebuilt

section Ranks
variable {env sub t : Table} {types args : List Ty} {raw entries : List Entry} {codes : List Int}
  {s : Rebuilt} {order : Nat → Nat}

/-- A type that stands for an entry shows what the entry was rebuilt as. -/
theorem Rebuilds.former_known (h : Rebuilds raw.toArray codes s t args) {i : Nat} {type : Ty}
    (hs : s.Stands (i : Int) type) :
    ∃ c n, s.known i = some (c, n) ∧ t.former type = some (.composite c) := by
  generalize hcode : (i : Int) = code at hs
  cases hs with
  | prim _ hneg => omega
  | @named j hj =>
    obtain rfl : i = j := by omega
    obtain ⟨c, n, hc, hk⟩ := h.entry (h.lt_of_named hj)
    refine ⟨c, n, hk, former_eq_some.mpr ⟨.composite c, ?_, rfl⟩⟩
    simp only [follow, Table.resolve, h.labelCode?_eq_some.mpr ⟨i, hj, rfl, rfl⟩]
    exact typeOfCode_index hc
  | @copy j c n hk =>
    obtain rfl : i = j := by omega
    exact ⟨c, n, hk, rfl⟩

/-- The members of a type that stands for an entry are in front of it or lead back. -/
theorem Rebuilds.precedes (h : Rebuilds raw.toArray codes s t args)
    (horder : Finished raw.toArray s order) {code : Int} {type : Ty} (hs : s.Stands code type) :
    ∃ f g, Entry.former raw code = some f ∧ t.former type = some g ∧
      f.Rel (fun code' v => s.Stands code' v ∧
        ∃ i : Nat, code = i ∧ Precedes raw.toArray s order i code' v) g := by
  obtain ⟨g, f, hg, hf, hgf⟩ := h.isBisimulation type code hs
  refine ⟨f, g, hf, hg, ?_⟩
  cases hgf with
  | prim p => exact .prim p
  | @composite c e hce =>
    have hpos : ¬ code < 0 := by
      intro hneg
      simp [Entry.former, hneg] at hf
    obtain ⟨i, rfl⟩ : ∃ i : Nat, code = i := ⟨code.toNat, by omega⟩
    obtain ⟨c', n, hk, hc'⟩ := h.former_known hs
    rw [hg] at hc'
    cases hc'
    obtain ⟨e', he', hmembers⟩ := horder i c n hk
    rw [Entry.former_index (by simpa using he')] at hf
    cases hf
    refine .composite (Composite.rel_iff.mpr ⟨hce.shape_eq.symm, ?_⟩)
    exact List.Forall₂.mp (fun code' v hstands hprecedes => ⟨hstands, i, rfl, hprecedes⟩)
      hce.flip.members hmembers

/-- How late the entry of a code was finished; opcodes come first. -/
def rankOf (order : Nat → Nat) (code : Int) : Nat := if code < 0 then 0 else order code.toNat + 1

/-- An expected type and a type that was read which stand for one code. -/
def Paired (env sub : Table) (s : Rebuilt) (a b : Ty) (code : Int) : Prop :=
  env.WellFormed a ∧ sub.Coded a code ∧ s.Stands code b

section Written
variable (henv : env.Proper) (hc : Copies env types sub)
  (hwritten : sub.entries.mapM sub.toEntry = .ok entries)
  (hs : Rebuilds (entries.map Entry.unnamed).toArray codes s t args)
  (horder : Finished (entries.map Entry.unnamed).toArray s order)
include henv hc hwritten hs horder

/-- Members of paired types are paired, and stand in front or lead back. -/
theorem Paired.step {a b : Ty} {code : Int} (h : Paired env sub s a b code) :
    ∃ f g, env.former a = some f ∧ t.former b = some g ∧ f.Rel (fun u v => ∃ code',
      Paired env sub s u v code' ∧ u ∈ f.members ∧ ∃ i : Nat, code = i ∧
        Precedes (entries.map Entry.unnamed).toArray s order i code' v) g := by
  obtain ⟨hwell, hcode, hstands⟩ := h
  obtain ⟨f, g, hf, hg, hfg⟩ := isBisimulation_coded hc hwritten a code hcode
  obtain ⟨g', d, hg', hd, hgd⟩ := hs.precedes horder hstands
  obtain rfl : g = g' := Option.some.inj (hg.symm.trans hg')
  rw [henv.canonicalFormer hwell] at hf
  obtain ⟨f', hf', _, hmembers, _⟩ := henv.former hwell
  obtain rfl : f = f' := Option.some.inj (hf.symm.trans hf')
  refine ⟨f, d, hf, hd, ?_⟩
  cases hfg with
  | prim p =>
    cases hgd
    exact .prim p
  | @composite c e hce =>
    cases hgd with
    | composite hed =>
      have hin : ∀ m ∈ c.members, m ∈ c.members ∧ env.WellFormed m := fun m hm =>
        ⟨hm, hmembers m hm⟩
      refine .composite (((hce.and_left hin).comp hed).imp ?_)
      rintro u v ⟨code', ⟨⟨hu, huwell⟩, hu'⟩, hstands', hprecedes⟩
      exact ⟨code', ⟨huwell, hu', hstands'⟩, hu, hprecedes⟩

theorem paired_isBisimulation :
    IsBisimulation env.former t.former fun a b => ∃ code, Paired env sub s a b code := by
  rintro a b ⟨code, h⟩
  obtain ⟨f, g, hf, hg, hfg⟩ := h.step henv hc hwritten hs horder
  exact ⟨f, g, hf, hg, hfg.imp fun _ _ ⟨code', h, _⟩ => ⟨code', h⟩⟩

/-- Paired types whose definitions share nothing rank by the order in which entries were
finished. -/
theorem paired_descends {registered : List Ty} (hexact : sub.Exact registered) (hlisted : sub.Listed)
    (hunshared : env.Unshared types) :
    Descends env t ((Finset.range entries.length).sup order + 1) fun rank a b =>
      ∃ code, Paired env sub s a b code ∧ rankOf order code = rank := by
  have hseparate := separate_of_unshared hunshared hc hexact hwritten
  constructor
  · rintro _ a b ⟨code, ⟨_, _, hstands⟩, rfl⟩
    unfold rankOf
    split
    · exact Nat.zero_le _
    · obtain ⟨i, rfl⟩ : ∃ i : Nat, code = i := ⟨code.toNat, by omega⟩
      obtain ⟨c, n, hk, _⟩ := hs.former_known hstands
      have hlt : i < entries.length := by simpa using hs.faithful.lt_size hk
      exact Nat.succ_le_succ (Finset.le_sup (f := order) (Finset.mem_range.mpr hlt))
  · rintro _ a b ⟨code, h, rfl⟩
    obtain ⟨f, g, hf, hg, hfg⟩ := h.step henv hc hwritten hs horder
    refine ⟨f, g, hf, hg, hfg.imp ?_⟩
    rintro u v ⟨code', hpaired, hu, i, rfl, hprecedes⟩
    refine ⟨_, ⟨code', hpaired, rfl⟩, ?_⟩
    unfold rankOf
    rw [if_neg (show ¬ (i : Int) < 0 by omega)]
    by_cases hneg : code' < 0
    · rw [if_pos hneg]
      exact .inl (Nat.succ_pos _)
    · obtain ⟨j, rfl⟩ : ∃ j : Nat, code' = j := ⟨code'.toNat, by omega⟩
      rw [if_neg hneg]
      rcases hprecedes j rfl with ⟨_, hlt⟩ | ⟨hback, y, hy⟩
      · exact .inl (by simpa using hlt)
      · obtain ⟨c, d, hc', hd, hcd⟩ := h.2.1.former hc
        rw [hf] at hc'
        cases hc'
        obtain ⟨m, hm, hum⟩ := exists_of_mem_right (Ty.same_composite.mp hcd).flip.members hu
        obtain ⟨x, rfl⟩ := named_of_back hexact hlisted hwritten hseparate hback hd hm
          (codeOf_congr hum hpaired.2.1.1)
        obtain rfl : u = .named x := by
          cases u <;> simp_all [Ty.same]
        exact .inr ⟨x, y, rfl, hy⟩

end Written

end Ranks

end Didl.Table

namespace Didl.Message
open Value Table
variable {env t : Table} {types : List Ty} {values : List Value} {bytes : List UInt8}

theorem bind_of_some_ok {α β : Type} {x : ExceptT Fault Option α} {f : α → ExceptT Fault Option β}
    {a : α} (hx : x = some (.ok a)) : (x >>= f) = f a := by
  subst hx
  rfl

section Expected
variable {type expected : Ty} {v : Value} {rest : List ((Ty × Value) × Ty)} {head : Head}

theorem expectAll_reserved (h : env.follow expected = .ok (.prim .reserved)) :
    expectAll env t (((type, v), expected) :: rest) =
      (do return .reserved :: (← expectAll env t rest)) := by
  rw [expectAll]
  exact bind_of_some_ok (congrArg some h)

theorem expectAll_compared (h : env.follow expected = .ok head)
    (hnot : head.isPrim .reserved = false) {verdict : Option (Except Fault Bool)}
    (hverdict : env.equivalent expected t type = verdict) :
    expectAll env t (((type, v), expected) :: rest) = (do
      if ← ExceptT.mk verdict then return v :: (← expectAll env t rest)
      else throw (.mismatch expected.text type.text)) := by
  rw [expectAll, hverdict]
  refine (bind_of_some_ok (congrArg some h)).trans ?_
  rw [hnot]
  rfl

end Expected

/-- Arguments that are never told apart from what is expected are admitted, if their types can be
compared. -/
theorem expectAll_agreed {args : List (Ty × Value)} {expected : List Ty}
    (h : List.Forall₂ (fun arg type => (∃ head, env.follow type = .ok head ∧
      (head = .prim .reserved → arg.2 = .reserved)) ∧ (env.equivalent type t arg.1 = none ∨
        env.equivalent type t arg.1 = some (.ok true))) args expected) :
    (expectAll env t (args.zip expected) = none ∧
      ∃ p ∈ args.zip expected, env.equivalent p.2 t p.1.1 = none) ∨
      expectAll env t (args.zip expected) = some (.ok (args.map Prod.snd)) := by
  induction h with
  | nil => exact .inr rfl
  | @cons arg type args expected hfirst hrest ih =>
    obtain ⟨type', v⟩ := arg
    obtain ⟨⟨head, hhead, hreserved⟩, hequivalent⟩ := hfirst
    rw [List.zip_cons_cons, List.map_cons]
    -- What comes behind an admitted value decides.
    have hthen : ∀ first : ExceptT Fault Option (List Value),
        first = (do return v :: (← expectAll env t (args.zip expected))) →
        (first = none ∧
          ∃ p ∈ ((type', v), type) :: args.zip expected, env.equivalent p.2 t p.1.1 = none) ∨
          first = some (.ok (v :: args.map Prod.snd)) := by
      rintro _ rfl
      rcases ih with ⟨hnone, p, hp, hpnone⟩ | hok
      · exact .inl ⟨by rw [hnone]; rfl, p, List.mem_cons_of_mem _ hp, hpnone⟩
      · exact .inr (bind_of_some_ok hok)
    cases hprim : head.isPrim .reserved with
    | true =>
      obtain rfl : head = .prim .reserved := by
        cases head with
        | prim p => simpa [Head.isPrim] using hprim
        | composite c => cases hprim
      obtain rfl : v = .reserved := hreserved rfl
      exact hthen _ (expectAll_reserved hhead)
    | false =>
      rcases hequivalent with hnone | htrue
      · exact .inl ⟨expectAll_compared hhead hprim hnone, _, List.mem_cons_self, hnone⟩
      · exact hthen _ (expectAll_compared hhead hprim htrue)

theorem decodeAs_of_decode {args : List (Ty × Value)} {expected : List Ty}
    (h : decodeWithTable bytes = .ok (t, args)) (hlength : args.length = expected.length) :
    decodeAs env expected bytes = expectAll env t (args.zip expected) := by
  refine (bind_of_some_ok (congrArg some h)).trans ?_
  dsimp only
  rw [if_neg (not_not.mpr hlength)]

/-- Types that are related one by one, with a value beside each that comes from its partner. -/
theorem forall₂_args {R : Ty → Ty → Prop} {types types' : List Ty} {values : List Value}
    (f : Ty × Value → Value) (h : List.Forall₂ R types types')
    (hlength : types.length = values.length) :
    List.Forall₂ (fun (arg : Ty × Value) type => R type arg.1 ∧ ∃ v, arg.2 = f (type, v))
      (types'.zip ((types.zip values).map f)) types := by
  induction h generalizing values with
  | nil => exact .nil
  | cons hr _ ih =>
    cases values with
    | nil => cases hlength
    | cons v values => exact .cons ⟨hr, v, rfl⟩ (ih (Nat.succ.inj hlength))

/-- A reader takes in full a message that was written for well-formed types and keeps the limits, and
the types that it finds are paired with them. -/
theorem decode_paired (henv : env.Proper) (htypes : ∀ type ∈ types, env.WellFormed type)
    (hv : ∀ v ∈ values, v.Ordered) (h : encode env types values = .ok bytes)
    (hlimits : WithinLimits env types values) (hlt : bytes.length < 2 ^ 63) :
    ∃ codes sub entries s order t types', tableFor env types = .ok (codes, sub) ∧
      sub.entries.mapM sub.toEntry = .ok entries ∧
      Rebuilds (entries.map Entry.unnamed).toArray codes s t types' ∧
      Rebuilt.Finished (entries.map Entry.unnamed).toArray s order ∧
      List.Forall₂ (fun type type' => ∃ code, Paired env sub s type type' code) types types' ∧
      decodeWithTable bytes =
        .ok (t, types'.zip ((types.zip values).map fun p => normal env p.2 p.1)) := by
  obtain ⟨hlength, codes, sub, prelude, out, hsub, hprelude, hwrite, rfl⟩ := encode_eq_ok h
  obtain ⟨hcopies, hnames, hcodes⟩ := tableFor_eq_ok hsub
  obtain ⟨entries, hentries, hbytes⟩ := preludeBytes_eq_ok hprelude
  have hlegible : ∀ type ∈ types, env.Legible type := fun type h => henv.legible (htypes type h)
  obtain ⟨pieces, hpieces, hout⟩ := encodes_of_writeAll_unique (fun p hp => by
    obtain ⟨htype, hvalue⟩ := List.of_mem_zip hp
    exact ⟨hcopies.uniqueIds (hnames _ htype) (hlegible _ htype).uniqueIds, hv _ hvalue⟩) hwrite
  dsimp only at hout
  rw [hout] at hlt ⊢
  have hpresent : Presentable entries codes := by
    refine presentable hcopies hnames hlegible hentries fun code hcode => ?_
    obtain ⟨type, _, htype⟩ := exists_of_mem_right hcodes hcode
    exact ⟨type, htype⟩
  rcases decode_written hsub hentries hpresent hbytes hlength hpieces hlt
      (fun v hv => ⟨hlimits.depth v hv, hlimits.numbers v hv⟩) hlimits.zeroItems with
    ⟨_, hmany⟩ | ⟨t, types', hrebuild, _, hok⟩
  · exact absurd (hlimits.entries codes sub hsub) (Nat.not_le.mpr hmany)
  obtain ⟨s, order, hs, horder⟩ := rebuild_finished hrebuild
  have hpaired : List.Forall₂ (fun type type' => ∃ code, Paired env sub s type type' code)
      types types' := by
    have hcoded : ∀ type ∈ types, env.WellFormed type ∧ ∀ x ∈ type.names, sub.isBound x = true :=
      fun type h => ⟨htypes type h, hnames type h⟩
    refine (forall₂_comp ((List.forall₂_and_left _ _).mpr ⟨hcoded, hcodes⟩) hs.arguments).imp ?_
    rintro type type' ⟨code, ⟨⟨hwell, hbound⟩, hcode⟩, hstands⟩
    exact ⟨code, hwell, ⟨hcode, hbound⟩, hstands⟩
  exact ⟨codes, sub, entries, s, order, t, types', hsub, hentries, hs, horder, hpaired, hok⟩

/-- A message that was written with the table of source that compiles is read against its own types:
the comparisons with what the reader makes of them come to an answer if the names that the types lead
to share no recursion, and no answer that they come to refuses a value. -/
theorem decodeAs_encode {source : String} {interface : Idl.Interface}
    (hsource : Idl.Interface.ofSource source = .ok interface)
    (htypes : ∀ type ∈ types, interface.table.WellFormed type) (hv : ∀ v ∈ values, v.Ordered)
    (h : encode interface.table types values = .ok bytes)
    (hlimits : WithinLimits interface.table types values) (hlt : bytes.length < 2 ^ 63) :
    (interface.table.Unshared types → decodeAs interface.table types bytes =
      some (.ok ((types.zip values).map fun p => normal interface.table p.2 p.1))) ∧
    ∀ answer, decodeAs interface.table types bytes = some answer →
      answer = .ok ((types.zip values).map fun p => normal interface.table p.2 p.1) := by
  have henv := (Idl.Interface.ofSource_wellFormed hsource).table
  obtain ⟨codes, sub, entries, s, order, t, types', hsub, hentries, hs, horder, hpaired, hok⟩ :=
    decode_paired henv htypes hv h hlimits hlt
  obtain ⟨hcopies, _, _⟩ := tableFor_eq_ok hsub
  obtain ⟨hlength, _⟩ := encode_eq_ok h
  have hargs := forall₂_args (fun p => normal interface.table p.2 p.1) hpaired hlength
  have hbisimulation := paired_isBisimulation henv hcopies hentries hs horder
  have hcases := expectAll_agreed (hargs.imp fun arg type ⟨hpair, v, hvalue⟩ => by
    obtain ⟨head, hhead, _⟩ := henv.head hpair.choose_spec.1
    refine ⟨⟨head, hhead, ?_⟩, equivalent_of_bisimulation hbisimulation hpair⟩
    rintro rfl
    rw [hvalue, normal_reserved hhead])
  have hvalues : ((types.zip values).map fun p => normal interface.table p.2 p.1).length ≤
      types'.length := by
    rw [List.length_map, List.length_zip, ← hpaired.length_eq]
    exact Nat.min_le_left _ _
  rw [List.map_snd_zip hvalues] at hcases
  rw [decodeAs_of_decode hok hargs.length_eq]
  constructor
  · intro hunshared
    refine hcases.resolve_left ?_
    rintro ⟨_, p, hp, hnone⟩
    obtain ⟨registered, hexact, hlisted⟩ := tableFor_listed hsub
    obtain ⟨⟨code, hcode⟩, _⟩ := List.forall₂_zip hargs hp
    have hdescends := paired_descends henv hcopies hentries hs horder hexact hlisted hunshared
    rw [hdescends.equivalent ⟨code, hcode, rfl⟩] at hnone
    cases hnone
  · intro answer hanswer
    rcases hcases with ⟨hnone, _⟩ | hok
    · rw [hnone] at hanswer
      cases hanswer
    · exact Option.some.inj (hanswer.symm.trans hok)

section Chain

def chainTable : Table :=
  ⟨[.record [⟨0, none, .prim .int⟩, ⟨1, none, .composite (.opt (.named "List"))⟩],
    .opt (.named "List")], [("List", 0)]⟩

/-- One definition shares nothing with another one. -/
theorem chainTable_unshared (types : List Ty) : chainTable.Unshared types := by
  have hresolve : ∀ {x : String} {c : Composite Ty}, chainTable.resolve x = .ok (.composite c) →
      c = .record [⟨0, none, .prim .int⟩, ⟨1, none, .composite (.opt (.named "List"))⟩] := by
    intro x c hc
    simp only [Table.resolve, labelCode?, chainTable, List.lookup] at hc
    split at hc
    · rename_i code hcode
      split at hcode
      · cases hcode
        cases hc
        rfl
      · cases hcode
    · cases hc
  intro x y c d _ _ hx hy _ _ _ _ _ _
  rw [hresolve hx, hresolve hy]
  exact Ty.same_refl _

end Chain

theorem decodeAs_encode_list :
    ∃ interface bytes,
      Idl.Interface.ofSource "type List = record \x7b int; opt List \x7d;" = .ok interface ∧
      encode interface.table [.named "List"] [.record [(0, .int 5), (1, .opt none)]] = .ok bytes ∧
      interface.table.Unshared [.named "List"] ∧
      decodeAs interface.table [.named "List"] bytes =
        some (.ok [.record [(0, .int 5), (1, .opt none)]]) := by
  obtain ⟨interface, hsource, htable⟩ : ∃ interface : Idl.Interface,
      Idl.Interface.ofSource "type List = record \x7b int; opt List \x7d;" = .ok interface ∧
        interface.table = chainTable := except_map_eq_ok.mp (by cbv)
  have hunshared : interface.table.Unshared [.named "List"] := htable ▸ chainTable_unshared _
  have hordered : Ordered (.record [(0, .int 5), (1, .opt none)]) := by
    have hint : Ordered (.int 5) := .of_leaf rfl (by simp)
    have hnone : Ordered (.opt none) := .of_leaf rfl (by simp)
    refine .of_children (by simpa [children] using ⟨hint, hnone⟩) fun fields hf => ?_
    cases hf
    decide
  have hnumbers : ShortNumbers (.record [(0, .int 5), (1, .opt none)]) := by
    have hint : ShortNumbers (.int 5) := by
      refine .of_children (by simp [children]) (by simp) fun i hi => ?_
      cases hi
      decide
    have hnone : ShortNumbers (.opt none) := .of_leaf rfl (by simp) (by simp)
    exact .of_children (by simpa [children] using ⟨hint, hnone⟩) (by simp) (by simp)
  have hencode : encode interface.table [.named "List"] [.record [(0, .int 5), (1, .opt none)]] =
      .ok [68, 73, 68, 76, 2, 108, 2, 0, 124, 1, 1, 110, 0, 1, 0, 5, 0] := by
    rw [htable]
    cbv
  have hwell : ∀ type ∈ [Ty.named "List"], interface.table.WellFormed type := by
    intro type h
    rw [List.mem_singleton.mp h, htable]
    refine ⟨fun x hx => ?_, List.forall_mem_nil _, fun ms hms => ?_⟩
    · rw [List.mem_singleton.mp hx]
      rfl
    · exact absurd hms List.not_mem_nil
  obtain ⟨hok, _⟩ := decodeAs_encode hsource hwell
    (fun v h => by rw [List.mem_singleton.mp h]; exact hordered) hencode
    { depth := by
        intro v hv
        rw [List.mem_singleton.mp hv, show depth _ = 1 by cbv]
        decide
      entries := by
        intro codes table h
        rw [htable] at h
        have hsize : (tableFor chainTable [.named "List"]).map (fun r => r.2.size) = .ok 2 := by cbv
        rw [h] at hsize
        rw [show table.size = 2 from Except.ok.inj hsize]
        decide
      zeroItems := by
        rw [htable, show (List.map _ _).sum = 0 by cbv]
        decide
      numbers := fun v hv => by rw [List.mem_singleton.mp hv]; exact hnumbers } (by decide)
  refine ⟨interface, _, hsource, hencode, hunshared, (hok hunshared).trans ?_⟩
  rw [htable]
  cbv

section Endless

def sharedTable : Table :=
  ⟨[.vec (.composite (.opt (.named "L"))), .opt (.named "L")], [("L", 0), ("T", 1)]⟩

set_option maxRecDepth 4000 in
/-- The option that `T` stands for is written out inside of `L` as well. The reader meets it first and
names it, and not the vector as the source does: the comparison goes round through a name on one side
and none on the other, however deep it goes, and what was encoded within all limits is never read. -/
theorem decodeAs_endless :
    ∃ interface bytes t type,
      Idl.Interface.ofSource "type L = vec opt L; type T = opt L;" = .ok interface ∧
      (∀ type ∈ [Ty.named "T"], interface.table.WellFormed type) ∧
      (∀ v ∈ [Value.opt none], v.Ordered) ∧
      encode interface.table [.named "T"] [.opt none] = .ok bytes ∧
      WithinLimits interface.table [.named "T"] [.opt none] ∧ bytes.length < 2 ^ 63 ∧
      decodeWithTable bytes = .ok (t, [(type, .opt none)]) ∧
      (∀ limit, interface.table.compare t limit [] (.named "T") type = none) ∧
      decodeAs interface.table [.named "T"] bytes = none := by
  obtain ⟨interface, hsource, htable⟩ : ∃ interface : Idl.Interface,
      Idl.Interface.ofSource "type L = vec opt L; type T = opt L;" = .ok interface ∧
        interface.table = sharedTable := except_map_eq_ok.mp (by cbv)
  have hnone : sharedTable.equivalent (.named "T")
      ⟨[.opt (.composite (.vec (.named "table0"))), .vec (.named "table0")], [("table0", 0)]⟩
      (.composite (.opt (.composite (.vec (.named "table0"))))) = none := by cbv
  have hwell : sharedTable.WellFormed (.named "T") := by
    refine ⟨fun x hx => ?_, List.forall_mem_nil _, fun ms hms => absurd hms List.not_mem_nil⟩
    rw [List.mem_singleton.mp hx]
    rfl
  rw [← htable] at hnone hwell
  have hdepth : (Value.opt none).depth ≤ maxDepth := by
    rw [show depth _ = 0 by cbv]
    decide
  refine ⟨interface, [68, 73, 68, 76, 2, 110, 1, 109, 0, 1, 0, 0], _, _, hsource,
    List.forall_mem_singleton.mpr hwell, List.forall_mem_singleton.mpr (.of_leaf rfl (by simp)),
    by rw [htable]; cbv, ?_, by decide, by cbv, equivalent_eq_none hnone, by rw [htable]; cbv⟩
  refine ⟨List.forall_mem_singleton.mpr hdepth, fun codes table h => ?_, ?_,
    List.forall_mem_singleton.mpr (.of_leaf rfl (by simp) (by simp))⟩
  · rw [htable] at h
    have hsize : (tableFor sharedTable [.named "T"]).map (fun r => r.2.size) = .ok 2 := by cbv
    rw [h] at hsize
    rw [show table.size = 2 from Except.ok.inj hsize]
    decide
  · rw [htable, show (List.map _ _).sum = 0 by cbv]
    decide

end Endless

/- Types are compared by position. A record that lists its fields in another order than that of their
numbers is told apart from what was written for it. -/
example : decodeAs {} [.composite (.record [⟨2, none, .prim .null⟩, ⟨1, none, .prim .null⟩])]
    [68, 73, 68, 76, 1, 108, 2, 1, 127, 2, 127, 1, 0] = some (.error
      (.mismatch "record \x7b 2: null; 1: null \x7d" "record \x7b 1: null; 2: null \x7d")) := by cbv

end Didl.Message
