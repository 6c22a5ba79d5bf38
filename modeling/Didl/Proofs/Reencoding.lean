import Didl.Proofs.Measuring
import Didl.Proofs.MessageRoundTrip
import Didl.Proofs.Providing
import Didl.Proofs.ReadTypes
import Didl.Proofs.Reading

namespace Didl.Message
open Value Table

section Read
variable {t : Table} {types : List Ty} {args : List (Ty × Value)}

/-- Arguments that were read are values of their types in the form in which a reader holds them, and
their elements of no size were paid for. -/
theorem readAll_eq_ok (hids : ∀ type ∈ types, t.UniqueIds type) {allowance left : Nat}
    {bytes rest : List UInt8} (h : readAll t types allowance bytes = (.ok (args, left), rest)) :
    args.map Prod.fst = types ∧ (∀ p ∈ args, ReadBack t p.1 (maxDepth + 1) p.2) ∧
      (args.map fun p => zeroItems t p.2 p.1).sum + left ≤ allowance := by
  induction types generalizing args allowance bytes with
  | nil =>
    cases h
    exact ⟨rfl, nofun, by simp⟩
  | cons type types ih =>
    obtain ⟨⟨v, left₁⟩, bytes₁, hv, h⟩ := Step.bind_eq_ok.mp h
    obtain ⟨⟨rest, left₂⟩, bytes₂, hrest, h⟩ := Step.bind_eq_ok.mp h
    cases h
    obtain ⟨hback, hle⟩ := readBack_of_read (hids type List.mem_cons_self) _ hv
    obtain ⟨rfl, hbacks, hle'⟩ := ih (fun type h => hids type (List.mem_cons_of_mem _ h)) hrest
    refine ⟨rfl, List.forall_mem_cons.mpr ⟨hback, hbacks⟩, ?_⟩
    rw [List.map_cons, List.sum_cons]
    dsimp only
    omega

end Read

section Write
variable {env sub : Table} {args : List (Ty × Value)} {pieces : List (List UInt8)}

theorem writeAll_ok (h : List.Forall₂ (fun p bs => Encodes sub p.2 p.1 bs) args pieces)
    (out : Array UInt8) : writeAll sub args out = (.ok (), out ++ pieces.flatten) := by
  induction h generalizing out with
  | nil => simp [writeAll]
  | cons hp _ ih =>
    rw [writeAll]
    refine (Step.bind_ok (write_of_encodes hp out)).trans ?_
    rw [ih, append_append, List.flatten_cons]

/-- Types that a table can be written for and values of these types make a message. -/
theorem encode_ok {types : List Ty} {values : List Value} {codes : List Int} {entries : List Entry}
    (hsub : tableFor env types = .ok (codes, sub))
    (hentries : sub.entries.mapM sub.toEntry = .ok entries) (hlength : types.length = values.length)
    (h : List.Forall₂ (fun p bs => Encodes sub p.2 p.1 bs) (types.zip values) pieces) :
    encode env types values = .ok (magic ++ Entry.listBytes Entry.bytes entries ++
      Entry.listBytes Varint.ofInt codes ++ pieces.flatten) := by
  have hprelude : sub.preludeBytes codes = .ok (magic ++ Entry.listBytes Entry.bytes entries ++
      Entry.listBytes Varint.ofInt codes) := by
    rw [preludeBytes, hentries]
    rfl
  unfold encode
  rw [if_neg (not_not.mpr hlength)]
  refine except_bind_ok hsub ?_
  refine except_bind_ok hprelude ?_
  refine except_bind_ok (a := ()) (forM_eq_ok.mpr fun p hp => ?_) ?_
  · obtain ⟨bs, _, hbs⟩ := exists_of_mem_right h.flip hp
    exact except_bind_ok (size_of_encodes hbs) rfl
  · simp only [writeAll_ok h]
    simp

end Write

/-- A message that was read can be written again, and what is written is read as the same values,
unless the table is then refused for its depth: it lists every type before those that occur in it,
whatever the order in which they were sent. A table of no more entries than levels is not refused. -/
theorem decode_reencode {bytes : List UInt8} {t : Table} {args : List (Ty × Value)}
    (h : decodeWithTable bytes = .ok (t, args)) :
    ∃ bytes', encode t (args.map Prod.fst) (args.map Prod.snd) = .ok bytes' ∧
      (bytes'.length < 2 ^ 63 →
        (∃ args', decode bytes' = .ok args' ∧ args'.map Prod.snd = args.map Prod.snd) ∨
          decode bytes' = .error .tooDeep ∧ maxDepth < t.size) := by
  obtain ⟨types, payload, left, hprelude, hread⟩ := decodeWithTable_eq_ok h
  obtain ⟨hs, htypes⟩ := readPrelude_types hprelude
  obtain ⟨rfl, hback, hzero⟩ :=
    readAll_eq_ok (fun type htype => (htypes type htype).2.1.uniqueIds) hread
  have hzip : (args.map Prod.fst).zip (args.map Prod.snd) = args := by
    rw [List.zip_map', List.map_id'']
    exact fun _ => rfl
  have hlength : (args.map Prod.fst).length = (args.map Prod.snd).length := by simp
  obtain ⟨codes, sub, registered, hsub, hexact⟩ :=
    tableFor_returns hs fun type htype => (htypes type htype).1
  obtain ⟨hcopies, hnames, hcodes⟩ := tableFor_eq_ok hsub
  obtain ⟨entries, hentries⟩ := entries_return hexact hcopies hnames
  obtain ⟨pieces, hpieces⟩ : ∃ pieces, List.Forall₂ (fun p bs => Encodes sub p.2 p.1 bs)
      ((args.map Prod.fst).zip (args.map Prod.snd)) pieces := by
    rw [hzip]
    refine exists_forall₂ fun p hp => ?_
    obtain ⟨bs, hbs⟩ := (hback p hp).encodes
    have hself : p.1.same p.1 = true ∧ ∀ x ∈ p.1.names, sub.isBound x = true :=
      ⟨Ty.same_refl p.1, hnames _ (List.mem_map_of_mem hp)⟩
    exact ⟨bs, hbs.alike hcopies.isBisimulation.canonical hself⟩
  have hpresent : Presentable entries codes := by
    refine presentable hcopies hnames (fun type htype => (htypes type htype).2.1) hentries ?_
    intro code hcode
    obtain ⟨type, _, htype⟩ := exists_of_mem_right hcodes hcode
    exact ⟨type, htype⟩
  refine ⟨_, encode_ok hsub hentries hlength hpieces, fun hlt => ?_⟩
  have hvalues : ∀ v ∈ args.map Prod.snd, v.depth ≤ maxDepth ∧ v.ShortNumbers := by
    intro v hv
    obtain ⟨p, hp, rfl⟩ := List.mem_map.mp hv
    exact ⟨Nat.le_of_lt_succ (hback p hp).depth, (hback p hp).numbers⟩
  rcases decode_written hsub hentries hpresent rfl hlength hpieces hlt hvalues
      (by rw [hzip]; omega) with ⟨herror, hmany⟩ | ⟨t', types', _, hlength', hok⟩
  · have hsize : sub.size ≤ t.size := hexact.size_le fun c hc => by
      obtain ⟨type, htype, u, hu, hf⟩ := hcopies.entries c hc
      exact (htypes type htype).2.2 u c hu hf
    exact .inr ⟨by rw [decode, herror]; rfl, Nat.lt_of_lt_of_le hmany hsize⟩
  · refine .inl ⟨_, by rw [decode, hok]; rfl, ?_⟩
    have hnormal : args.map (fun p => normal t p.2 p.1) = args.map Prod.snd :=
      List.map_congr_left fun p hp => (hback p hp).normal
    rw [hzip, hnormal, List.map_snd_zip]
    rw [hlength', List.length_map, List.length_map]

/-- Two entries, the inner one listed first, which change places. -/
theorem decode_reencode_vec :
    decodeWithTable [68, 73, 68, 76, 2, 110, 127, 109, 0, 1, 1, 1, 0] =
      .ok (⟨[.opt (.prim .null), .vec (.composite (.opt (.prim .null)))], []⟩,
        [(.composite (.vec (.composite (.opt (.prim .null)))), .vec [.opt none])]) ∧
    encode ⟨[.opt (.prim .null), .vec (.composite (.opt (.prim .null)))], []⟩
        [.composite (.vec (.composite (.opt (.prim .null))))] [.vec [.opt none]] =
      .ok [68, 73, 68, 76, 2, 109, 1, 110, 127, 1, 0, 1, 0] ∧
    ∃ args, decode [68, 73, 68, 76, 2, 109, 1, 110, 127, 1, 0, 1, 0] = .ok args ∧
      args.map Prod.snd = [.vec [.opt none]] := by
  have hdecode : decodeWithTable [68, 73, 68, 76, 2, 110, 127, 109, 0, 1, 1, 1, 0] =
      .ok (⟨[.opt (.prim .null), .vec (.composite (.opt (.prim .null)))], []⟩,
        [(.composite (.vec (.composite (.opt (.prim .null)))), .vec [.opt none])]) := by cbv
  have hencode : encode ⟨[.opt (.prim .null), .vec (.composite (.opt (.prim .null)))], []⟩
        [.composite (.vec (.composite (.opt (.prim .null))))] [.vec [.opt none]] =
      .ok [68, 73, 68, 76, 2, 109, 1, 110, 127, 1, 0, 1, 0] := by cbv
  obtain ⟨bytes, hbytes, hagain⟩ := decode_reencode hdecode
  cases hencode.symm.trans hbytes
  rcases hagain (by decide) with hok | ⟨_, hmany⟩
  · exact ⟨hdecode, hencode, hok⟩
  · exact absurd hmany (by decide)

end Didl.Message
