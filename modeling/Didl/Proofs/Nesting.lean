import Didl.Proofs.Chains
import Didl.Proofs.Reencoding

namespace Didl

def Ty.nest : Nat → Ty
  | 0 => .prim .null
  | n + 1 => .composite (.opt (nest n))

namespace Ty

theorem size_nest (n : Nat) : (nest n).size = n + 1 := by
  induction n with
  | zero => rfl
  | succ n ih => simp [nest, size_composite, Composite.members, ih]

theorem names_nest (n : Nat) : (nest n).names = [] := by
  induction n with
  | zero => rfl
  | succ n ih => simp [nest, names_composite, Composite.members, ih]

/-- Each option stands before the one that it holds. -/
theorem parts_nest (n : Nat) :
    (nest n).parts = ((List.range n).map fun k => Composite.opt (nest k)).reverse := by
  induction n with
  | zero => rfl
  | succ n ih => simp [nest, parts_composite, Composite.members, ih, List.range_succ]

theorem same_nest_of_ne {m n : Nat} (h : m ≠ n) :
    (composite (.opt (nest m))).same (.composite (.opt (nest n))) = false := by
  refine Bool.eq_false_iff.mpr fun hsame => h ?_
  have hsize := size_of_same hsame
  rw [← nest, ← nest, size_nest, size_nest] at hsize
  omega

theorem distinct_nest (n : Nat) : ((List.range n).map fun k => Composite.opt (nest k)).Pairwise
    fun c d => (composite c).same (.composite d) = false :=
  List.pairwise_map.mpr (List.pairwise_lt_range.imp fun h => same_nest_of_ne (Nat.ne_of_lt h))

end Ty

namespace Rebuilt

def nested (n k : Nat) : Rebuilt :=
  ⟨((List.range n).map fun i => if i < k then some (.opt (.nest i), 1 + (i + 1)) else none).toArray,
    Array.replicate n false⟩

theorem known_nested {n k i : Nat} (h : i < n) :
    (nested n k).known i = if i < k then some (.opt (.nest i), 1 + (i + 1)) else none := by
  simp [known, nested, h]

theorem nested_zero (n : Nat) : nested n 0 = .empty n := by
  simp [nested, empty, List.map_const']

end Rebuilt

namespace Table
open Rebuilt

def nestEntries (n : Nat) : List Entry := (List.range n).map fun k => .opt (chainCode k)

def nestTable (n : Nat) : Table := ⟨(List.range n).map fun k => .opt (.nest k), []⟩

theorem store_nested {n k : Nat} :
    { nested n k with done := (nested n k).done.setIfInBounds k (some (.opt (.nest k), 1 + (k + 1))) } =
      nested n (k + 1) := by
  simp only [nested, Rebuilt.mk.injEq, and_true]
  refine Array.ext (by simp) fun i hi hi' => ?_
  simp only [List.getElem_toArray, List.getElem_map, List.getElem_range]
  by_cases hik : k = i
  · subst hik
    simp
  · simp [hik, show i < k + 1 ↔ i < k by omega]

/-- A member whose entry was rebuilt is a copy of it. -/
theorem member_nested {n m k : Nat} (limit : Nat) (hk : k ≤ m) (hm : m ≤ n) (hn : n < maxInlined)
    (path : List Nat) (hpath : ∀ i ∈ path, k ≤ i) :
    member (expand (nestEntries n).toArray limit) path (chainCode k) (nested n m) =
      .ok ((.nest k, k + 1), nested n m) := by
  cases k with
  | zero => rfl
  | succ k =>
    have hknown := known_nested (n := n) (k := m) (i := k) (by omega)
    rw [if_pos (show k < m by omega)] at hknown
    have hpos : ¬ (k : Int) < 0 := by omega
    have hnew : ¬ path.contains k = true := fun hc => by
      have hle := hpath k (List.contains_iff_mem.mp hc)
      omega
    rw [member, chainCode, if_neg hpos, Int.toNat_natCast, if_neg hnew]
    simp only [bind, StateT.bind, Except.bind, expand_known hknown]
    rw [if_neg (by omega), Nat.add_comm 1]
    rfl

/-- The entry that comes next is rebuilt from the one before it. -/
theorem expand_nested {n k : Nat} (limit : Nat) (hk : k < n) (hn : n < maxInlined) :
    expand (nestEntries n).toArray (limit + 1) [] k (nested n k) =
      .ok ((.opt (.nest k), 1 + (k + 1)), nested n (k + 1)) := by
  have hknown := known_nested (n := n) (k := k) hk
  rw [if_neg (Nat.lt_irrefl k)] at hknown
  have hraw : (nestEntries n).toArray[k]? = some (.opt (chainCode k)) := by
    simp [nestEntries, hk]
  have hmember := member_nested limit (Nat.le_refl k) (Nat.le_of_lt hk) hn [k]
    (fun i hi => Nat.le_of_eq (List.mem_singleton.mp hi).symm)
  unfold expand
  simp only [bind, StateT.bind, Except.bind, get, getThe, MonadStateOf.get, StateT.get]
  dsimp only [pure, Except.pure]
  rw [show (nested n k).done[k]?.join = none from hknown, hraw]
  simp only [Composite.mapM, bind, StateT.bind, Except.bind, hmember]
  rw [← store_nested]
  rfl

/-- Options that are listed from the inside are rebuilt, however many they are, as long as none of
them is too large to be copied. -/
theorem rebuild_nest {n : Nat} (hn : n < maxInlined) :
    rebuild (nestEntries n).toArray [chainCode n] = .ok (nestTable n, [.nest n]) := by
  have hsize : (nestEntries n).toArray.size = n := by simp [nestEntries]
  have hentries : (List.range n).mapM (m := M)
      (fun index => do pure (← expand (nestEntries n).toArray maxDepth [] index).1) (.empty n) =
        .ok ((List.range n).map fun k => .opt (.nest k), nested n n) := by
    rw [← nested_zero]
    refine mapM_range_ok fun k hk => ?_
    simp only [bind, StateT.bind, Except.bind, maxDepth, expand_nested 511 hk hn]
    rfl
  have hargs : [chainCode n].mapM (m := M)
      (fun code => do pure (← member (expand (nestEntries n).toArray maxDepth) [] code).1)
        (nested n n) = .ok ([.nest n], nested n n) := by
    have hmember := member_nested maxDepth (Nat.le_refl n) (Nat.le_refl n) hn [] nofun
    simp only [List.mapM_cons, List.mapM_nil, bind, StateT.bind, Except.bind, hmember]
    rfl
  have hlabels : (List.range n).filter (fun i => (nested n n).labelled[i]?.getD false) = [] := by
    refine List.filter_eq_nil_iff.mpr fun i hi => ?_
    simp [nested, List.mem_range.mp hi]
  unfold rebuild
  simp only [hsize, StateT.run, bind, StateT.bind, Except.bind] at hentries hargs ⊢
  rw [hentries]
  dsimp only
  rw [hargs]
  simp only [pure, StateT.pure, Except.pure, hlabels]
  rfl

/-- Where each option holds the next entry, more of them than there are levels are not rebuilt. -/
theorem expand_too_deep {raw : Array Entry} {limit i : Nat} {path : List Nat} {s : Rebuilt}
    (hraw : ∀ j, i ≤ j → j < i + limit → raw[j]? = some (.opt (j + 1 : Nat)))
    (hnone : ∀ j, i ≤ j → s.known j = none) (hpath : ∀ j ∈ path, j < i) :
    expand raw limit path i s = .error .tooDeep := by
  induction limit generalizing i path with
  | zero =>
    unfold expand
    simp only [bind, StateT.bind, Except.bind, get, getThe, MonadStateOf.get, StateT.get]
    dsimp only [pure, Except.pure]
    rw [show s.done[i]?.join = none from hnone i (Nat.le_refl i)]
    rfl
  | succ limit ih =>
    have hnext := @ih (i + 1) (i :: path) (fun j hj hlt => hraw j (by omega) (by omega))
      (fun j hj => hnone j (by omega)) fun j hj => by
        rcases List.mem_cons.mp hj with rfl | hj
        · exact Nat.lt_succ_self j
        · exact Nat.lt_succ_of_lt (hpath j hj)
    have hpos : ¬ ((i + 1 : Nat) : Int) < 0 := by omega
    have hnew : ¬ (i :: path).contains (i + 1) = true := fun hc => by
      rcases List.mem_cons.mp (List.contains_iff_mem.mp hc) with heq | hmem
      · omega
      · have := hpath _ hmem
        omega
    have hmember : member (expand raw limit) (i :: path) (i + 1 : Nat) s = .error .tooDeep := by
      rw [member, if_neg hpos, Int.toNat_natCast, if_neg hnew]
      simp only [bind, StateT.bind, Except.bind, hnext]
    unfold expand
    simp only [bind, StateT.bind, Except.bind, get, getThe, MonadStateOf.get, StateT.get]
    dsimp only [pure, Except.pure]
    rw [show s.done[i]?.join = none from hnone i (Nat.le_refl i), hraw i (Nat.le_refl i) (by omega)]
    simp only [Composite.mapM, bind, StateT.bind, Except.bind, hmember]

theorem rebuild_too_deep {raw : Array Entry} (codes : List Int)
    (hraw : ∀ j < maxDepth, raw[j]? = some (.opt (j + 1 : Nat))) :
    rebuild raw codes = .error .tooDeep := by
  have hfirst : expand raw maxDepth [] 0 (.empty raw.size) = .error .tooDeep :=
    expand_too_deep (fun j _ hlt => hraw j (by omega))
      (fun j _ => by
        simp only [known, empty, Array.getElem?_replicate]
        split <;> rfl) nofun
  obtain ⟨m, hm⟩ : ∃ m, raw.size = m + 1 := by
    have hlt := (Array.getElem?_eq_some_iff.mp (hraw 0 (by decide))).1
    exact ⟨raw.size - 1, by omega⟩
  rw [hm] at hfirst
  unfold rebuild
  simp only [hm, List.range_succ_eq_map, List.mapM_cons, StateT.run, bind, StateT.bind, Except.bind,
    hfirst]

theorem knownCode_chainCode {n k : Nat} (h : k ≤ n) : Entry.knownCode n (chainCode k) = true := by
  cases k with
  | zero => rfl
  | succ k =>
    rw [chainCode, knownCode_index]
    exact decide_eq_true h

theorem presentable_nest (n : Nat) : Presentable (nestEntries n) [chainCode n] := by
  have hlength : (nestEntries n).length = n := by simp [nestEntries]
  have hentry : ∀ e ∈ nestEntries n, ∃ k < n, e = .opt (chainCode k) := by
    intro e he
    obtain ⟨k, hk, rfl⟩ := List.mem_map.mp he
    exact ⟨k, List.mem_range.mp hk, rfl⟩
  refine ⟨fun e he code hcode => ?_, fun e he => ?_, fun e he m hm => ?_, fun code hcode => ?_⟩
  · obtain ⟨k, hk, rfl⟩ := hentry e he
    rw [hlength, List.mem_singleton.mp hcode]
    exact knownCode_chainCode (Nat.le_of_lt hk)
  · obtain ⟨k, hk, rfl⟩ := hentry e he
    trivial
  · obtain ⟨k, hk, rfl⟩ := hentry e he
    cases hm
  · rw [hlength, List.mem_singleton.mp hcode]
    exact knownCode_chainCode (Nat.le_refl n)

/-- The prelude of a message of options is short. -/
theorem length_options {entries : List Entry} {codes : List Int} (hpresent : Presentable entries codes)
    (hopt : ∀ e ∈ entries, ∃ code, e = .opt code) (hentries : entries.length < 2 ^ 32)
    (hcodes : codes.length < 2 ^ 32) :
    (magic ++ Entry.listBytes Entry.bytes entries ++
      Entry.listBytes Varint.ofInt codes).length < 2 ^ 62 := by
  have hentries' : (Entry.listBytes Entry.bytes entries).length ≤
      entries.length + 1 + entries.length * 20 := by
    apply Entry.length_listBytes_le
    intro e he
    obtain ⟨code, rfl⟩ := hopt e he
    obtain ⟨hlow, hhigh⟩ := Entry.fits_of_known
      (hpresent.members _ he code (List.mem_singleton_self code)) (by omega)
    have hopcode : (Varint.ofInt Entry.optOpcode).length ≤ 10 :=
      Varint.length_ofInt_le (by decide) (by decide)
    have hcode := Varint.length_ofInt_le hlow hhigh
    rw [Entry.bytes, List.length_append]
    omega
  have hcodes' : (Entry.listBytes Varint.ofInt codes).length ≤ codes.length + 1 + codes.length * 10 := by
    apply Entry.length_listBytes_le
    intro code hcode
    obtain ⟨hlow, hhigh⟩ := Entry.fits_of_known (hpresent.codes code hcode) (by omega)
    exact Varint.length_ofInt_le hlow hhigh
  have hmagic : magic.length = 4 := rfl
  rw [List.length_append, List.length_append]
  omega

end Table

namespace Message
open Table Value

def nestBytes (n : Nat) : List UInt8 :=
  magic ++ Entry.listBytes Entry.bytes (nestEntries n) ++
    Entry.listBytes Varint.ofInt [chainCode n] ++ [0]

theorem decode_nest {n : Nat} (hn : n + 1 < maxInlined) :
    decodeWithTable (nestBytes (n + 1)) = .ok (nestTable (n + 1), [(.nest (n + 1), .opt none)]) := by
  have hpresent := presentable_nest (n + 1)
  have hlength : (nestEntries (n + 1)).length = n + 1 := by simp [nestEntries]
  have hshort := length_options hpresent
    (fun e he => by
      obtain ⟨k, _, rfl⟩ := List.mem_map.mp he
      exact ⟨_, rfl⟩)
    (by rw [hlength]; exact Nat.lt_trans hn (by decide)) (by rw [List.length_singleton]; decide)
  have hread := readPrelude_append hpresent (by omega) [0]
  have hunnamed : (nestEntries (n + 1)).map Entry.unnamed = nestEntries (n + 1) := by
    simp [nestEntries, Entry.unnamed]
  rw [hunnamed, rebuild_nest hn] at hread
  rw [decodeWithTable, nestBytes, reader_of_prelude hread]
  rfl

/-- A type without names is registered in a table of its own. -/
theorem tableFor_nameless (env : Table) {type : Ty} {code : Int} {u : Table} (h : type.names = [])
    (hreg : register {} type = .ok (code, u)) : tableFor env [type] = .ok ([code], u) := by
  simp [tableFor, copyLabels_of_nameless h, hreg, bind, Except.bind, pure, Except.pure]

/-- Parts of which no two are the same are appended as they are. -/
theorem addAll_eq_append {t : Table} {cs : List (Composite Ty)}
    (h : (t.entries ++ cs).Pairwise fun c d => (Ty.composite c).same (.composite d) = false) :
    cs.foldl add t = { t with entries := t.entries ++ cs } := by
  induction cs generalizing t with
  | nil => simp
  | cons c cs ih =>
    have hnone : t.indexOf? c = none := by
      refine List.findIdx?_eq_none_iff.mpr fun e he => ?_
      exact (List.pairwise_append.mp h).2.2 e he c List.mem_cons_self
    have hadd : t.add c = { t with entries := t.entries ++ [c] } := by rw [add, hnone]
    rw [List.foldl_cons, hadd, ih (by simpa using h)]
    simp

def nestedTable (n : Nat) : Table := ⟨((List.range n).map fun k => .opt (.nest k)).reverse, []⟩

theorem addAll_nest (n : Nat) : (Ty.nest n).parts.foldl add {} = nestedTable n := by
  rw [addAll_eq_append, Ty.parts_nest]
  · rfl
  · rw [List.nil_append, Ty.parts_nest, List.pairwise_reverse]
    exact (Ty.distinct_nest n).imp fun h => by
      rw [Bool.eq_false_iff] at h ⊢
      exact fun hsame => h (Ty.same_symm hsame)

theorem nestedTable_exact (n : Nat) : (nestedTable n).Exact [.nest n] := by
  rw [← addAll_nest]
  simpa [Call.registers] using Call.run_exact .empty (.register (.nest n))

theorem getElem?_nestedTable {n i k : Nat} (h : n = i + (k + 1)) :
    (nestedTable n).entries[i]? = some (.opt (.nest k)) := by
  rw [nestedTable, List.getElem?_reverse (by simp; omega)]
  simp [show n - 1 - i = k by omega, show k < n by omega]

theorem codeOf_nestedTable {n i k : Nat} (h : n = i + (k + 1)) :
    (nestedTable n).codeOf (.nest (k + 1)) = .ok (i : Int) :=
  (nestedTable_exact n).codeOf_entry (getElem?_nestedTable h)

theorem tidy_nest (t : Table) (n : Nat) : t.Tidy (.nest n) := by
  induction n with
  | zero => exact .of_former rfl trivial nofun nofun
  | succ n ih =>
    refine .of_former rfl trivial nofun fun m hm => ?_
    rw [List.mem_singleton.mp hm]
    exact ih

theorem tableFor_nest (env : Table) (n : Nat) :
    tableFor env [.nest (n + 1)] = .ok ([0], nestedTable (n + 1)) := by
  refine tableFor_nameless env (Ty.names_nest _) ?_
  rw [register]
  simp only [addAll_nest, codeOf_nestedTable (n := n + 1) (i := 0) (k := n) (by omega)]
  rfl

/-- Written again, the options are listed from the outside, and are refused if they are more than
the levels of a reader. -/
theorem decode_nest_again {n : Nat} (hmany : maxDepth ≤ n) (hn : n + 1 < 2 ^ 32) (env : Table) :
    ∃ bytes, encode env [.nest (n + 1)] [.opt none] = .ok bytes ∧ decode bytes = .error .tooDeep := by
  have hsub := tableFor_nest env n
  obtain ⟨hcopies, hnames, hcodes⟩ := tableFor_eq_ok hsub
  obtain ⟨entries, hentries⟩ := entries_return (nestedTable_exact (n + 1)) hcopies hnames
  have hpresent : Presentable entries [0] :=
    presentable_of_tableFor (fun type htype => by
      rw [List.mem_singleton.mp htype]
      exact tidy_nest env (n + 1)) hsub hentries
  have hlength : entries.length = n + 1 := by simp [length_written hentries, nestedTable]
  have hopt : ∀ e ∈ entries, ∃ code, e = .opt code := by
    intro e he
    obtain ⟨c, hc, hrel⟩ := exists_of_written hentries he
    obtain ⟨k, _, rfl⟩ := List.mem_map.mp (List.mem_reverse.mp hc)
    cases hrel with
    | opt => exact ⟨_, rfl⟩
  have hraw : ∀ j < maxDepth, (entries.map Entry.unnamed).toArray[j]? = some (.opt (j + 1 : Nat)) := by
    intro j hj
    obtain ⟨k, hk⟩ : ∃ k, n = j + 1 + k := ⟨n - (j + 1), by omega⟩
    obtain ⟨e, he, hrel⟩ := entry_of_written hentries
      (getElem?_nestedTable (n := n + 1) (i := j) (k := k + 1) (by omega))
    cases hrel with
    | opt hcode =>
      rw [codeOf_nestedTable (n := n + 1) (i := j + 1) (k := k) (by omega)] at hcode
      cases hcode
      simp [he, Entry.unnamed]
  have hpieces : List.Forall₂ (fun (p : Ty × Value) bs => Encodes (nestedTable (n + 1)) p.2 p.1 bs)
      ([.nest (n + 1)].zip [.opt none]) [[0]] := .cons (.none rfl) .nil
  have hcount : [Ty.nest (n + 1)].length = [Value.opt none].length := rfl
  refine ⟨_, encode_ok hsub hentries hcount hpieces, ?_⟩
  have hshort := length_options hpresent hopt (by omega) (by rw [List.length_singleton]; decide)
  have hvalues : ∀ v ∈ [Value.opt none], v.depth ≤ maxDepth ∧ v.ShortNumbers := by
    intro v hv
    rw [List.mem_singleton.mp hv]
    exact ⟨by rw [depth]; decide, .of_leaf rfl nofun nofun⟩
  have hzero : zeroItems env (.opt none) (.nest (n + 1)) = 0 := by
    rw [zeroItems.eq_def, Ty.nest]
    rfl
  have hpayload : [[(0 : UInt8)]].flatten.length = 1 := rfl
  rcases decode_written hsub hentries hpresent rfl hcount hpieces
      (by rw [List.length_append]; omega) hvalues (by simp [hzero])
    with ⟨herror, _⟩ | ⟨t, types', hrebuild, _⟩
  · rw [decode, herror]
    rfl
  · rw [rebuild_too_deep [0] hraw] at hrebuild
    cases hrebuild

/-- One option more than there are levels, listed from the inside: the message is read, and what is
written again of it is refused. -/
theorem decode_nest_unreadable :
    decodeWithTable (nestBytes (maxDepth + 1)) =
      .ok (nestTable (maxDepth + 1), [(.nest (maxDepth + 1), .opt none)]) ∧
    ∃ bytes, encode (nestTable (maxDepth + 1)) [.nest (maxDepth + 1)] [.opt none] = .ok bytes ∧
      decode bytes = .error .tooDeep :=
  ⟨decode_nest (by decide), decode_nest_again (Nat.le_refl maxDepth) (by decide) _⟩

end Message

end Didl
