import Didl.Proofs.Encoding
import Didl.Proofs.Registration

namespace Didl

def Ty.chain : Nat → Ty
  | 0 => .prim .null
  | n + 1 => .composite (.record [⟨0, none, chain n⟩])

def Value.chain : Nat → Value
  | 0 => .null
  | n + 1 => .record [(0, chain n)]

def Composite.link (n : Nat) : Composite Ty := .record [⟨0, none, .chain n⟩]

namespace Ty

theorem same_chain (m n : Nat) : (chain m).same (chain n) = decide (m = n) := by
  induction m generalizing n with
  | zero => cases n <;> rfl
  | succ m ih =>
    cases n with
    | zero => rfl
    | succ n => simp [chain, same, sameComposite, sameFields, ih]

theorem names_chain (n : Nat) : (chain n).names = [] := by
  induction n with
  | zero => rfl
  | succ n ih => simp [chain, names_composite, Composite.members, ih]

theorem mem_parts_chain {n : Nat} {c : Composite Ty} (h : c ∈ (chain n).parts) :
    ∃ k < n, c = .link k := by
  induction n with
  | zero => cases h
  | succ n ih =>
    rw [chain, parts_composite] at h
    rcases List.mem_cons.mp h with rfl | h
    · exact ⟨n, Nat.lt_succ_self n, rfl⟩
    · obtain ⟨k, hk, hc⟩ := ih (by simpa [Composite.members] using h)
      exact ⟨k, Nat.lt_succ_of_lt hk, hc⟩

end Ty

namespace Table

theorem tidy_chain (t : Table) (n : Nat) : t.Tidy (.chain n) := by
  induction n with
  | zero => exact .of_former rfl trivial nofun nofun
  | succ n ih =>
    refine .of_former rfl (by decide : ([0] : List UInt32).Nodup) nofun fun m hm => ?_
    rw [List.mem_singleton.mp hm]
    exact ih

end Table

namespace Value

theorem ordered_chain (n : Nat) : (chain n).Ordered := by
  induction n with
  | zero => exact .of_leaf rfl (by simp [chain])
  | succ n ih =>
    refine .of_children (fun w hw => ?_) (fun fields hf => ?_)
    · rw [List.mem_singleton.mp hw]
      exact ih
    · cases hf
      exact List.pairwise_singleton _ _

section
variable (table : Table)

theorem addSize_chain (n sum : Nat) : addSize table (chain n) (.chain n) sum = (.ok (), sum) := by
  induction n generalizing sum with
  | zero => rfl
  | succ n ih => simp [chain, Ty.chain, addSize, dispatch, Table.follow, recordFields, sizers, sortBy,
      insertBy, eachField, ih, Step.bind_apply]

theorem write_chain (n : Nat) (out : Array UInt8) :
    write table (chain n) (.chain n) out = (.ok (), out) := by
  induction n generalizing out with
  | zero => rfl
  | succ n ih => simp [chain, Ty.chain, write, dispatch, Table.follow, recordFields, writers, sortBy,
      insertBy, eachField, ih, Step.bind_apply]

theorem size_vec_chain (n : Nat) :
    (vec [chain n]).size table (.composite (.vec (.chain n))) = .ok (Varint.sizeNat 1) := by
  have hadd : addSize table (vec [chain n]) (.composite (.vec (.chain n))) 0 =
      (.ok (), Varint.sizeNat 1) := by
    have hcount : more (Varint.sizeNat 1) 0 = (.ok (), Varint.sizeNat 1) := by simp [more]
    rw [addSize, dispatch, Table.follow, Step.ofExcept_ok_bind]
    refine (Step.bind_ok hcount).trans ?_
    simp [addSizes, addSize_chain]
  rw [size, hadd]

theorem write_vec_chain (n : Nat) (out : Array UInt8) :
    write table (vec [chain n]) (.composite (.vec (.chain n))) out = (.ok (), out ++ [(1 : UInt8)]) := by
  have hone : Varint.ofNat 1 = [1] := by cbv
  have hcount : Writer.bytes (Varint.ofNat 1) out = (.ok (), out ++ [(1 : UInt8)]) := by
    rw [hone, Writer.bytes]
  rw [write, dispatch, Table.follow, Step.ofExcept_ok_bind]
  refine (Step.bind_ok hcount).trans ?_
  simp [writeItems, write_chain]

/-- As far as `limit` levels tell, shorter chains take no input, and longer ones do. -/
theorem zeroSized_chain (limit n : Nat) :
    table.zeroSized limit (.chain n) = .ok (decide (n < limit)) := by
  induction limit generalizing n with
  | zero => rfl
  | succ limit ih =>
    cases n with
    | zero => rfl
    | succ n =>
      by_cases h : n < limit <;>
        simp [Ty.chain, Table.zeroSized, Table.zeroSized.allFields, Table.follow, ih, h, bind,
          Except.bind]

/-- A chain that fits the levels that a reader has left is read. -/
theorem read_chain {limit n : Nat} (h : n < limit) (allowance : Nat) (bytes : List UInt8) :
    read table limit (.chain n) allowance bytes = (.ok (chain n, allowance), bytes) := by
  induction limit generalizing n with
  | zero => omega
  | succ limit ih =>
    cases n with
    | zero => rfl
    | succ n =>
      simp [Ty.chain, chain, read, Table.follow, readFields, sortBy, insertBy, Assoc.ofList,
        Assoc.insert, Step.bind_apply, ih (show n < limit by omega)]

end

end Value

namespace Table

def tower (n : Nat) : Table := ⟨(List.range n).map .link, []⟩

def spire (n : Nat) : Table := ⟨(tower n).entries ++ [.vec (.chain (n + 1))] ++ [.link n], []⟩

theorem same_link (m n : Nat) :
    (Ty.composite (.link m)).same (.composite (.link n)) = decide (m = n) := by
  simp [Ty.same, Ty.sameComposite, Ty.sameFields, Composite.link, Ty.same_chain]

theorem indexOf?_tower (n k : Nat) :
    (tower n).indexOf? (.link k) = if k < n then some k else none := by
  induction n with
  | zero => rfl
  | succ n ih =>
    rw [tower, List.range_succ, List.map_append, List.map_singleton, indexOf?_append, same_link,
      ← tower, ih, List.length_map, List.length_range]
    by_cases hlt : k < n
    · rw [if_pos hlt, if_pos (Nat.lt_succ_of_lt hlt), Option.some_or]
    · by_cases heq : n = k
      · simp [heq]
      · simp [heq, hlt, show ¬ k < n + 1 by omega]

theorem indexOf?_spire {n k : Nat} (h : k ≤ n) :
    (spire n).indexOf? (.link k) = some (if k < n then k else n + 1) := by
  rw [spire, indexOf?_append, indexOf?_append, same_link,
    show Table.mk (tower n).entries [] = tower n from rfl, indexOf?_tower]
  by_cases hlt : k < n
  · simp [hlt]
  · simp [show n = k by omega, tower, Composite.link, Ty.same, Ty.sameComposite]

theorem register_chain (n : Nat) : (tower n).register (.chain (n + 1)) = .ok (n, tower (n + 1)) := by
  have hadd : (tower n).add (.link n) = tower (n + 1) := by
    rw [add, indexOf?_tower, if_neg (Nat.lt_irrefl n), tower, tower, List.range_succ,
      List.map_append, List.map_singleton]
  have hrest : (Ty.chain n).parts.foldl add (tower (n + 1)) = tower (n + 1) := by
    refine addAll_of_indexOf? fun c hc => ?_
    obtain ⟨k, hk, rfl⟩ := Ty.mem_parts_chain hc
    exact ⟨k, by rw [indexOf?_tower, if_pos (by omega)]⟩
  have hparts : (Ty.chain (n + 1)).parts = .link n :: (Ty.chain n).parts := by
    simp [Ty.chain, Ty.parts_composite, Composite.members, Composite.link]
  have hcode : (tower (n + 1)).codeOf (.chain (n + 1)) = .ok (n : Int) := by
    have hindex := indexOf?_tower (n + 1) n
    rw [if_pos (Nat.lt_succ_self n)] at hindex
    rw [Ty.chain, codeOf, show Composite.record _ = .link n from rfl, hindex]
  rw [register]
  simp only [hparts, List.foldl_cons, hadd, hrest, hcode]

theorem indexOf?_vec (n : Nat) (type : Ty) : (tower n).indexOf? (.vec type) = none := by
  refine List.findIdx?_eq_none_iff.mpr fun c hc => ?_
  obtain ⟨k, _, rfl⟩ := List.mem_map.mp hc
  rfl

theorem register_vec_chain (n : Nat) :
    (tower n).register (.composite (.vec (.chain (n + 1)))) = .ok (n, spire n) := by
  have hvec : (tower n).add (.vec (.chain (n + 1))) =
      ⟨(tower n).entries ++ [.vec (.chain (n + 1))], []⟩ := by
    rw [add, indexOf?_vec]
    rfl
  have hlink : add ⟨(tower n).entries ++ [.vec (.chain (n + 1))], []⟩ (.link n) = spire n := by
    rw [add, indexOf?_append, show Table.mk (tower n).entries [] = tower n from rfl, indexOf?_tower,
      if_neg (Nat.lt_irrefl n)]
    rfl
  have hrest : (Ty.chain n).parts.foldl add (spire n) = spire n := by
    refine addAll_of_indexOf? fun c hc => ?_
    obtain ⟨k, hk, rfl⟩ := Ty.mem_parts_chain hc
    exact ⟨_, indexOf?_spire (Nat.le_of_lt hk)⟩
  have hparts : (Ty.composite (.vec (.chain (n + 1)))).parts =
      .vec (.chain (n + 1)) :: .link n :: (Ty.chain n).parts := by
    simp [Ty.chain, Ty.parts_composite, Composite.members, Composite.link]
  have hindex : (spire n).indexOf? (.vec (.chain (n + 1))) = some n := by
    rw [spire, indexOf?_append, indexOf?_append, show Table.mk (tower n).entries [] = tower n from rfl,
      indexOf?_vec, if_pos (Ty.same_refl _)]
    simp [tower]
  rw [register]
  simp only [hparts, List.foldl_cons, hvec, hlink, hrest, codeOf, hindex]

def chainCode : Nat → Int
  | 0 => Prim.null.opcode
  | k + 1 => k

def linkEntry (k : Nat) : Entry := .record [⟨0, none, chainCode k⟩]

def spireEntries (n : Nat) : List Entry :=
  (List.range n).map linkEntry ++ [.vec (n + 1 : Nat)] ++ [linkEntry n]

theorem codeOf_spire {n k : Nat} (h : k ≤ n) : (spire n).codeOf (.chain k) = .ok (chainCode k) := by
  cases k with
  | zero => rfl
  | succ k =>
    have hindex := indexOf?_spire (Nat.le_of_succ_le h)
    rw [if_pos (Nat.lt_of_succ_le h)] at hindex
    rw [Ty.chain, codeOf, show Composite.record _ = .link k from rfl, hindex]
    rfl

theorem codeOf_spire_last (n : Nat) : (spire n).codeOf (.chain (n + 1)) = .ok ((n + 1 : Nat) : Int) := by
  have hindex := indexOf?_spire (Nat.le_refl n)
  rw [if_neg (Nat.lt_irrefl n)] at hindex
  rw [Ty.chain, codeOf, show Composite.record _ = .link n from rfl, hindex]

theorem mapM_spire (n : Nat) : (spire n).entries.mapM (spire n).toEntry = .ok (spireEntries n) := by
  have hlink : ∀ k ≤ n, (spire n).toEntry (.link k) = .ok (linkEntry k) := by
    intro k hk
    simp [toEntry, Composite.link, Composite.canonical, sortBy, insertBy, Composite.mapM,
      codeOf_spire hk, linkEntry, bind, Except.bind, pure, Except.pure]
  have hbelow : List.Forall₂ (fun c e => (spire n).toEntry c = .ok e)
      ((List.range n).map .link) ((List.range n).map linkEntry) := by
    refine List.forall₂_map_left_iff.mpr (List.forall₂_map_right_iff.mpr ?_)
    exact List.forall₂_same.mpr fun k hk => hlink k (Nat.le_of_lt (List.mem_range.mp hk))
  have hvec : (spire n).toEntry (.vec (.chain (n + 1))) = .ok (.vec (n + 1 : Nat)) := by
    simp [toEntry, Composite.canonical, Composite.mapM, codeOf_spire_last, bind, Except.bind, pure,
      Except.pure]
  refine except_mapM_eq_ok.mpr (List.rel_append (List.rel_append hbelow ?_) ?_)
  · exact .cons hvec .nil
  · exact .cons (hlink n (Nat.le_refl n)) .nil

theorem length_spireEntries (n : Nat) : (spireEntries n).length = n + 2 := by
  simp [spireEntries]

theorem mem_spireEntries {n : Nat} {e : Entry} (h : e ∈ spireEntries n) :
    (∃ k ≤ n, e = linkEntry k) ∨ e = .vec (n + 1 : Nat) := by
  rcases List.mem_append.mp h with h | h
  · rcases List.mem_append.mp h with h | h
    · obtain ⟨k, hk, rfl⟩ := List.mem_map.mp h
      exact .inl ⟨k, Nat.le_of_lt (List.mem_range.mp hk), rfl⟩
    · exact .inr (List.mem_singleton.mp h)
  · exact .inl ⟨n, Nat.le_refl n, List.mem_singleton.mp h⟩

theorem unnamed_spireEntries (n : Nat) : (spireEntries n).map Entry.unnamed = spireEntries n := by
  refine (List.map_congr_left fun e he => ?_).trans (List.map_id _)
  rcases mem_spireEntries he with ⟨k, _, rfl⟩ | rfl <;> rfl

/-- What a link refers to is null or the link before it. -/
theorem shallow_link {raw : Array Entry} {i j k : Nat} (limit : Nat)
    (hi : raw[i]? = some (linkEntry k)) (hj : k ≤ j) (hsize : k ≤ raw.size) :
    Rebuilt.Shallow raw (· < j) (limit + 1) i := by
  refine .inr ⟨linkEntry k, hi, fun code hcode => ?_⟩
  rw [show code = chainCode k from List.mem_singleton.mp hcode]
  cases k with
  | zero =>
    refine ⟨rfl, fun m hm => ?_⟩
    have hneg := opcode_neg .null
    rw [show chainCode 0 = Prim.null.opcode from rfl] at hm
    omega
  | succ k =>
    refine ⟨?_, fun m hm => ?_⟩
    · rw [chainCode, Rebuilt.knownCode_index]
      exact decide_eq_true hsize
    · rw [show m = k from (Int.ofNat.inj hm).symm]
      cases limit with
      | zero => exact Nat.lt_of_succ_le hj
      | succ limit => exact .inl (Nat.lt_of_succ_le hj)

/-- No entry refers to one that comes more than one level later. -/
theorem shallow_spire {n i : Nat} (limit : Nat) (h : i < n + 2) :
    Rebuilt.Shallow (spireEntries n).toArray (· < i) (limit + 2) i := by
  have hsize : (spireEntries n).toArray.size = n + 2 := length_spireEntries n
  have hlast : (spireEntries n).toArray[n + 1]? = some (linkEntry n) := by
    simp [spireEntries]
  have hvec : (spireEntries n).toArray[n]? = some (.vec (n + 1 : Nat)) := by
    simp [spireEntries]
  by_cases hlt : i < n
  · refine shallow_link _ (k := i) ?_ (Nat.le_refl i) (by omega)
    have hget : (spireEntries n)[i]? = ((List.range n).map linkEntry)[i]? := by
      rw [spireEntries, List.append_assoc]
      exact List.getElem?_append_left (by simpa using hlt)
    simp [hget, hlt]
  · by_cases heq : i = n
    · subst heq
      refine .inr ⟨_, hvec, fun code hcode => ?_⟩
      rw [List.mem_singleton.mp hcode]
      refine ⟨?_, fun m hm => ?_⟩
      · rw [Rebuilt.knownCode_index, hsize]
        exact decide_eq_true (Nat.lt_succ_self _)
      · rw [show m = i + 1 from (Int.ofNat.inj hm).symm]
        exact shallow_link _ hlast (Nat.le_refl i) (by omega)
    · rw [show i = n + 1 by omega]
      exact shallow_link _ hlast (Nat.le_succ n) (by omega)

end Table

namespace Message
open Table

def spireArgs (n : Nat) : List (Ty × Value) :=
  (List.range n).map (fun k => (.chain (k + 1), .chain (k + 1))) ++
    [(.composite (.vec (.chain (n + 1))), .vec [.chain (n + 1)])]

theorem mem_spireArgs {n : Nat} {p : Ty × Value} (h : p ∈ spireArgs n) :
    (∃ k < n, p = (.chain (k + 1), .chain (k + 1))) ∨
      p = (.composite (.vec (.chain (n + 1))), .vec [.chain (n + 1)]) := by
  rcases List.mem_append.mp h with h | h
  · obtain ⟨k, hk, rfl⟩ := List.mem_map.mp h
    exact .inl ⟨k, List.mem_range.mp hk, rfl⟩
  · exact .inr (List.mem_singleton.mp h)

theorem tidy_spireArgs {n : Nat} {type : Ty} (h : type ∈ (spireArgs n).map Prod.fst) :
    ({} : Table).Tidy type := by
  obtain ⟨p, hp, rfl⟩ := List.mem_map.mp h
  rcases mem_spireArgs hp with ⟨k, _, rfl⟩ | rfl
  · exact tidy_chain _ _
  · refine .of_former rfl trivial nofun fun m hm => ?_
    rw [List.mem_singleton.mp hm]
    exact tidy_chain _ _

theorem ordered_spireArgs {n : Nat} {v : Value} (h : v ∈ (spireArgs n).map Prod.snd) : v.Ordered := by
  obtain ⟨p, hp, rfl⟩ := List.mem_map.mp h
  rcases mem_spireArgs hp with ⟨k, _, rfl⟩ | rfl
  · exact Value.ordered_chain _
  · refine .of_children (fun w hw => ?_) nofun
    rw [List.mem_singleton.mp hw]
    exact Value.ordered_chain _

theorem copyLabels_of_nameless {env table : Table} {type : Ty} (h : type.names = []) :
    env.copyLabels type table = (none, table) := by
  rw [copyLabels, dependencies, h, List.reverse_nil, visit]
  rfl

theorem foldlM_fixed {σ α : Type} {f : σ → α → Except Fault σ} {s : σ} {as : List α}
    (h : ∀ a ∈ as, f s a = .ok s) : as.foldlM f s = .ok s := by
  induction as with
  | nil => rfl
  | cons a as ih =>
    rw [List.foldlM_cons, h a List.mem_cons_self]
    exact ih fun b hb => h b (List.mem_cons_of_mem _ hb)

theorem foldlM_tower {f : List Int × Table → Ty → Except Fault (List Int × Table)} {n : Nat}
    (h : ∀ codes k, f (codes, tower k) (.chain (k + 1)) = .ok ((k : Int) :: codes, tower (k + 1))) :
    ((List.range n).map fun i => Ty.chain (i + 1)).foldlM f ([], {}) =
      .ok (((List.range n).map Nat.cast).reverse, tower n) := by
  induction n with
  | zero => rfl
  | succ n ih =>
    rw [List.range_succ, List.map_append, List.foldlM_append, ih]
    simp [bind, Except.bind, h, pure, Except.pure]

theorem tableFor_spire (n : Nat) :
    tableFor {} ((spireArgs n).map Prod.fst) = .ok ((List.range (n + 1)).map Nat.cast, spire n) := by
  have hnames : ∀ type ∈ (spireArgs n).map Prod.fst, type.names = [] := by
    intro type htype
    obtain ⟨p, hp, rfl⟩ := List.mem_map.mp htype
    rcases mem_spireArgs hp with ⟨k, _, rfl⟩ | rfl
    · exact Ty.names_chain _
    · simp [Ty.names_composite, Composite.members, Ty.names_chain]
  have hsplit : (spireArgs n).map Prod.fst =
      ((List.range n).map fun i => Ty.chain (i + 1)) ++ [.composite (.vec (.chain (n + 1)))] := by
    simp [spireArgs, Function.comp_def]
  simp only [tableFor, bind, Except.bind]
  rw [foldlM_fixed fun type htype => by rw [copyLabels_of_nameless (hnames type htype)]]
  dsimp only
  rw [hsplit, List.foldlM_append, foldlM_tower fun codes k => by rw [register_chain]; rfl]
  simp [bind, Except.bind, register_vec_chain, List.range_succ, pure, Except.pure]

theorem zip_spireArgs (n : Nat) :
    ((spireArgs n).map Prod.fst).zip ((spireArgs n).map Prod.snd) = spireArgs n :=
  (List.zip_of_prod rfl rfl).symm

def spirePrelude (n : Nat) : List UInt8 :=
  magic ++ Entry.listBytes Entry.bytes (spireEntries n) ++
    Entry.listBytes Varint.ofInt ((List.range (n + 1)).map Nat.cast)

theorem writeAll_silent {table : Table} {args rest : List (Ty × Value)}
    (h : ∀ p ∈ args, ∀ out, p.2.write table p.1 out = (.ok (), out)) (out : Array UInt8) :
    writeAll table (args ++ rest) out = writeAll table rest out := by
  induction args with
  | nil => rfl
  | cons p args ih =>
    exact (Step.bind_ok (h p List.mem_cons_self out)).trans
      (ih fun q hq => h q (List.mem_cons_of_mem _ hq))

/-- The only byte after the prelude is the count of the elements of the `vec`. -/
theorem encode_spire (n : Nat) :
    encode {} ((spireArgs n).map Prod.fst) ((spireArgs n).map Prod.snd) = .ok (spirePrelude n ++ [1]) := by
  have hprelude : (spire n).preludeBytes ((List.range (n + 1)).map Nat.cast) = .ok (spirePrelude n) := by
    rw [preludeBytes, mapM_spire]
    rfl
  have hsizes : (spireArgs n).forM (fun p => do let _ ← p.2.size (spire n) p.1) = .ok ⟨⟩ := by
    apply forM_eq_ok.mpr
    intro p hp
    rcases mem_spireArgs hp with ⟨k, _, rfl⟩ | rfl
    · simp [Value.size, Value.addSize_chain, bind, Except.bind, pure, Except.pure]
    · simp [Value.size_vec_chain, bind, Except.bind, pure, Except.pure]
  have hwrite : writeAll (spire n) (spireArgs n) (spirePrelude n).toArray =
      (.ok (), (spirePrelude n ++ [1]).toArray) := by
    rw [spireArgs, writeAll_silent]
    · refine (Step.bind_ok (Value.write_vec_chain _ _ _)).trans ?_
      simp [writeAll]
    · intro p hp out
      obtain ⟨k, _, rfl⟩ := List.mem_map.mp hp
      exact Value.write_chain _ _ _
  unfold encode
  simp only [bind, Except.bind, List.length_map, tableFor_spire, hprelude, zip_spireArgs, hwrite,
    ne_eq, not_true_eq_false, if_false]
  simp only [bind, Except.bind] at hsizes
  rw [hsizes]

theorem length_linkEntry {k : Nat} (h : k < 2 ^ 32) : (linkEntry k).bytes.length ≤ 32 := by
  have hopcode : (Varint.ofInt Entry.recordOpcode).length ≤ 10 :=
    Varint.length_ofInt_le (by decide) (by decide)
  have hcode : (Varint.ofInt (chainCode k)).length ≤ 10 := by
    cases k with
    | zero => exact Varint.length_ofInt_le (by decide) (by decide)
    | succ k => exact Varint.length_ofInt_le (by rw [chainCode]; omega) (by rw [chainCode]; omega)
  have hone := Varint.length_ofNat_le 1
  have hzero := Varint.length_ofNat_le 0
  simp [linkEntry, Entry.bytes, Entry.listBytes, Entry.fieldBytes]
  omega

theorem length_spirePrelude {n : Nat} (h : n < 2 ^ 32) : (spirePrelude n ++ [1]).length < 2 ^ 63 := by
  have hentries : (Entry.listBytes Entry.bytes (spireEntries n)).length ≤
      (spireEntries n).length + 1 + (spireEntries n).length * 32 := by
    apply Entry.length_listBytes_le
    intro e he
    rcases mem_spireEntries he with ⟨k, hk, rfl⟩ | rfl
    · exact length_linkEntry (by omega)
    · have hopcode : (Varint.ofInt Entry.vecOpcode).length ≤ 10 :=
        Varint.length_ofInt_le (by decide) (by decide)
      have hcode : (Varint.ofInt (n + 1 : Nat)).length ≤ 10 :=
        Varint.length_ofInt_le (by omega) (by omega)
      rw [Entry.bytes, List.length_append]
      omega
  have hcodes : (Entry.listBytes Varint.ofInt ((List.range (n + 1)).map Nat.cast)).length ≤
      ((List.range (n + 1)).map (Nat.cast : Nat → Int)).length + 1 +
        ((List.range (n + 1)).map (Nat.cast : Nat → Int)).length * 10 := by
    apply Entry.length_listBytes_le
    intro code hcode
    obtain ⟨k, hk, rfl⟩ := List.mem_map.mp hcode
    have hlt := List.mem_range.mp hk
    exact Varint.length_ofInt_le (by omega) (by omega)
  rw [length_spireEntries] at hentries
  rw [List.length_map, List.length_range] at hcodes
  have hmagic : magic.length = 4 := rfl
  rw [spirePrelude, List.length_append, List.length_append, List.length_append, List.length_singleton]
  omega

/-- A reader has no levels left for the elements of the `vec`, and takes each of them for a byte. -/
theorem read_vec_chain (table : Table) (allowance : Nat) :
    Value.read table (maxDepth + 1) (.composite (.vec (.chain (maxDepth + 1)))) allowance [1] =
      (.error .endOfInput, []) := by
  have hone : Reader.varUInt64 [1] = (.ok 1, []) := by
    have hread := Reader.varUInt64_ofNat (n := 1) (by decide) []
    rwa [show Varint.ofNat 1 ++ [] = [1] by cbv] at hread
  have hzero := Value.zeroSized_chain table (maxDepth + 1) (maxDepth + 1)
  rw [decide_eq_false (Nat.lt_irrefl _)] at hzero
  rw [Value.read, follow, Step.ofExcept_ok_bind]
  dsimp only
  rw [show table.follow (.chain (maxDepth + 1)) = .ok (.composite (.link maxDepth)) from rfl,
    Step.ofExcept_ok_bind]
  refine (Step.bind_ok hone).trans ?_
  rw [hzero, Step.ofExcept_ok_bind]
  exact Step.bind_error rfl

theorem readAll_silent {table : Table} {types rest : List Ty} {allowance : Nat}
    {bytes left : List UInt8} {e : Fault}
    (h : ∀ type ∈ types, ∃ v, Value.read table (maxDepth + 1) type allowance bytes =
      (.ok (v, allowance), bytes))
    (hrest : readAll table rest allowance bytes = (.error e, left)) :
    readAll table (types ++ rest) allowance bytes = (.error e, left) := by
  induction types with
  | nil => exact hrest
  | cons type types ih =>
    obtain ⟨v, hv⟩ := h type List.mem_cons_self
    exact (Step.bind_ok hv).trans (Step.bind_error (ih fun u hu => h u (List.mem_cons_of_mem _ hu)))

/-- The chains that a reader has levels for are read, and then the `vec` is refused. -/
theorem readAll_spire (table : Table) (allowance : Nat) :
    readAll table ((spireArgs maxDepth).map Prod.fst) allowance [1] = (.error .endOfInput, []) := by
  rw [spireArgs, List.map_append]
  refine readAll_silent (fun type htype => ?_) (Step.bind_error (read_vec_chain table allowance))
  obtain ⟨p, hp, rfl⟩ := List.mem_map.mp htype
  obtain ⟨k, hk, rfl⟩ := List.mem_map.mp hp
  exact ⟨_, Value.read_chain table (Nat.succ_lt_succ (List.mem_range.mp hk)) allowance [1]⟩

end Message

end Didl
