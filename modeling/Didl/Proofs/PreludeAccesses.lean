import Didl.Proofs.EntryAccesses

namespace Didl

structure Expander where
  memo : Array (Option (Composite Ty × Nat))
  onStack : Array Bool
  labelled : Array Bool

namespace Expander
open Access
variable {α β : Type}

def empty (count : Nat) : Expander :=
  ⟨Array.replicate count none, Array.replicate count false, Array.replicate count false⟩

def fetch (items : Expander → Array α) (index : Nat) : Access Expander α := fun x =>
  load (items x)[index]? x

def store (items : Expander → Array α) (put : Array α → Expander → Expander) (index : Nat) (a : α) :
    Access Expander Unit := fun x =>
  if index < (items x).size then .ok (.ok (), put ((items x).setIfInBounds index a) x)
  else .error .outOfRange

def setMemo : Nat → Option (Composite Ty × Nat) → Access Expander Unit :=
  store memo fun memo x => { x with memo }

def setOnStack : Nat → Bool → Access Expander Unit :=
  store onStack fun onStack x => { x with onStack }

def setLabelled : Nat → Bool → Access Expander Unit :=
  store labelled fun labelled x => { x with labelled }

def refer (index : Nat) : Access Expander (Ty × Nat) := do
  setLabelled index true
  return (.named (entryLabel index), 1)

def member (expand : Nat → Access Expander (Composite Ty × Nat)) (code : Int) :
    Access Expander (Ty × Nat) := do
  if code < 0 then
    match ← primitive? code with
    | some p => return (.prim p, 1)
    | none => fail (.unknownType code)
  else
    let index := code.toNat
    if ← fetch onStack index then refer index
    else
      let (c, nodes) ← expand index
      if nodes > maxInlined then refer index else return (.composite c, nodes)

def expand (raw : Array Entry) : Nat → Nat → Access Expander (Composite Ty × Nat)
  | limit, index => do
    match ← fetch memo index with
    | some known => return known
    | none =>
      match limit with
      | 0 => fail .tooDeep
      | limit + 1 =>
        setOnStack index true
        let entry ← load raw[index]?
        let built ← entry.mapM (member (expand raw limit))
        let result := (built.map Prod.fst, built.members.foldl (fun n x => n + x.2) 1)
        setOnStack index false
        setMemo index (some result)
        return result

/-- The arrays hold what was rebuilt so far, while the entries of `path` are being rebuilt. -/
structure Mirrors (count : Nat) (path : List Nat) (x : Expander) (s : Rebuilt) : Prop where
  memo : x.memo = s.done
  labelled : x.labelled = s.labelled
  memo_size : x.memo.size = count
  onStack_size : x.onStack.size = count
  labelled_size : x.labelled.size = count
  onStack : ∀ i < count, x.onStack[i]? = some (path.contains i)

/-- Work on the arrays that does what other work does, from within one list of entries to within
another. -/
def Follows (count : Nat) (path path' : List Nat) (x : Access Expander α) (y : Rebuilt.M α) : Prop :=
  ∀ e s, Mirrors count path e s → match y s with
    | .ok (a, s') => ∃ e', x e = .ok (.ok a, e') ∧ Mirrors count path' e' s'
    | .error f => ∃ e', x e = .ok (.error f, e')

namespace Follows
variable {count : Nat} {path path' path'' : List Nat} {x : Access Expander α} {y : Rebuilt.M α}

theorem pure (a : α) : Follows count path path (Pure.pure a) (Pure.pure a) :=
  fun e _ h => ⟨e, rfl, h⟩

theorem fail (f : Fault) : Follows count path path' (Access.fail f : Access Expander α) (throw f) :=
  fun e _ _ => ⟨e, rfl⟩

theorem bind {f : α → Access Expander β} {g : α → Rebuilt.M β} (h : Follows count path path' x y)
    (hnext : ∀ a, Follows count path' path'' (f a) (g a)) :
    Follows count path path'' (x >>= f) (y >>= g) := by
  intro e s hmirrors
  have hfirst := h e s hmirrors
  change match y s >>= fun r => g r.1 r.2 with | .ok (a, s') => _ | .error f => _
  rcases hy : y s with f' | ⟨a, s'⟩ <;> rw [hy] at hfirst
  · obtain ⟨e', hrun⟩ := hfirst
    exact ⟨e', by rw [bind_apply, hrun]⟩
  · obtain ⟨e', hrun, hmirrors'⟩ := hfirst
    have hsecond := hnext a e' s' hmirrors'
    change match g a s' with | .ok (a, s') => _ | .error f => _
    rw [bind_apply, hrun]
    exact hsecond

/-- Work that goes ahead alone. -/
theorem ahead {a : α} {f : α → Access Expander β} {g : Rebuilt.M β}
    (h : ∀ e s, Mirrors count path e s → ∃ e', x e = .ok (.ok a, e') ∧ Mirrors count path' e' s)
    (hnext : Follows count path' path'' (f a) g) : Follows count path path'' (x >>= f) g := by
  intro e s hmirrors
  obtain ⟨e', hrun, hmirrors'⟩ := h e s hmirrors
  have hsecond := hnext e' s hmirrors'
  rw [bind_apply, hrun]
  exact hsecond

theorem mapM {f : β → Access Expander α} {g : β → Rebuilt.M α} (items : List β)
    (h : ∀ b ∈ items, Follows count path path (f b) (g b)) :
    Follows count path path (items.mapM f) (items.mapM g) := by
  induction items with
  | nil => exact .pure []
  | cons b items ih =>
    obtain ⟨hb, hitems⟩ := List.forall_mem_cons.mp h
    rw [List.mapM_cons, List.mapM_cons]
    exact hb.bind fun a => (ih hitems).bind fun as => .pure _

theorem composite [Inhabited α] {f : Int → Access Expander α} {g : Int → Rebuilt.M α} (entry : Entry)
    (h : ∀ code ∈ entry.members, Follows count path path (f code) (g code)) :
    Follows count path path (entry.mapM f) (entry.mapM g) := by
  rw [Composite.mapM_eq, Composite.mapM_eq, map_eq_pure_bind, map_eq_pure_bind]
  exact (mapM entry.members h).bind fun as => .pure _

end Follows

section
variable {raw : Array Entry} {count index : Nat} {path : List Nat}

theorem fetch_eq {items : Expander → Array α} {x : Expander} {a : α}
    (h : (items x)[index]? = some a) : fetch items index x = .ok (.ok a, x) := by
  rw [fetch, h]
  rfl

theorem store_eq {items : Expander → Array α} {put : Array α → Expander → Expander} {x : Expander}
    (h : index < (items x).size) (a : α) :
    store items put index a x = .ok (.ok (), put ((items x).setIfInBounds index a) x) := if_pos h

theorem refer_follows (hindex : index < count) :
    Follows count path path (refer index) (Rebuilt.refer index) := by
  intro e s h
  refine ⟨{ e with labelled := e.labelled.setIfInBounds index true }, ?_, ?_⟩
  · rw [refer, setLabelled, bind_apply, store_eq (h.labelled_size.symm ▸ hindex)]
    rfl
  · refine ⟨h.memo, ?_, h.memo_size, h.onStack_size, ?_, h.onStack⟩
    · rw [h.labelled]
    · rw [Array.size_setIfInBounds, h.labelled_size]

/-- What a changed place of the stack says, and what the others say. -/
theorem onStack_set {e : Expander} {s : Rebuilt} (h : Mirrors count path e s) (b : Bool) {i : Nat}
    (hi : i < count) : (e.onStack.setIfInBounds index b)[i]? =
      some (if index = i then b else path.contains i) := by
  rw [Array.getElem?_setIfInBounds, h.onStack_size, h.onStack i hi]
  split
  · rename_i heq
    rw [if_pos (heq ▸ hi)]
  · rfl

/-- An entry is open from here on. -/
theorem open_mirrors {e : Expander} {s : Rebuilt} (h : Mirrors count path e s)
    (hindex : index < count) :
    ∃ e', setOnStack index true e = .ok (.ok (), e') ∧ Mirrors count (index :: path) e' s := by
  refine ⟨_, store_eq (h.onStack_size.symm ▸ hindex) true, h.memo, h.labelled, h.memo_size, ?_,
    h.labelled_size, fun i hi => ?_⟩
  · exact (Array.size_setIfInBounds ..).trans h.onStack_size
  · refine (onStack_set h true hi).trans (congrArg some ?_)
    by_cases heq : index = i
    · simp [heq]
    · simp [heq, Ne.symm heq]

/-- An entry that was opened is open no more. -/
theorem close_mirrors {e : Expander} {s : Rebuilt} (h : Mirrors count (index :: path) e s)
    (hindex : index < count) (hnew : index ∉ path) :
    ∃ e', setOnStack index false e = .ok (.ok (), e') ∧ Mirrors count path e' s := by
  refine ⟨_, store_eq (h.onStack_size.symm ▸ hindex) false, h.memo, h.labelled, h.memo_size, ?_,
    h.labelled_size, fun i hi => ?_⟩
  · exact (Array.size_setIfInBounds ..).trans h.onStack_size
  · refine (onStack_set h false hi).trans (congrArg some ?_)
    by_cases heq : index = i
    · simpa [heq] using heq ▸ hnew
    · simp [heq, Ne.symm heq]

theorem setMemo_follows (hindex : index < count) (r : Composite Ty × Nat) :
    Follows count path path (setMemo index (some r))
      (modify fun s => { s with done := s.done.setIfInBounds index (some r) }) := by
  intro e s h
  refine ⟨_, store_eq (h.memo_size.symm ▸ hindex) (some r), ?_, h.labelled, ?_, h.onStack_size,
    h.labelled_size, h.onStack⟩
  · exact congrArg (·.setIfInBounds index (some r)) h.memo
  · exact (Array.size_setIfInBounds ..).trans h.memo_size

theorem member_follows {expand : Nat → Access Expander (Composite Ty × Nat)}
    {expand' : List Nat → Nat → Rebuilt.M (Composite Ty × Nat)} {code : Int}
    (hcode : Entry.knownCode count code = true)
    (hexpand : ∀ index, index < count → index ∉ path →
      Follows count path path (expand index) (expand' path index)) :
    Follows count path path (member expand code) (Rebuilt.member expand' path code) := by
  unfold member Rebuilt.member
  by_cases hneg : code < 0
  · rw [if_pos hneg, if_pos hneg, primitive?_eq, pure_bind]
    cases Prim.ofOpcode? code with
    | some p => exact .pure _
    | none => exact .fail _
  · have hindex := Entry.knownCode_lt hcode hneg
    rw [if_neg hneg, if_neg hneg]
    refine .ahead (fun e s h => ⟨e, fetch_eq (h.onStack _ hindex), h⟩) ?_
    by_cases hopen : path.contains code.toNat = true
    · rw [if_pos hopen, if_pos hopen]
      exact refer_follows hindex
    · rw [if_neg hopen, if_neg hopen]
      refine (hexpand _ hindex (by simpa using hopen)).bind fun r => ?_
      dsimp only
      split
      · exact refer_follows hindex
      · exact .pure _

/-- An entry that was rebuilt before is not rebuilt again. -/
theorem memo_follows {x : Access Expander (Composite Ty × Nat)}
    {y : Rebuilt.M (Composite Ty × Nat)} (hindex : index < count)
    (h : Follows count path path x y) :
    Follows count path path
      (do match ← fetch memo index with
        | some known => return known
        | none => x)
      (do match (← get).done[index]?.join with
        | some known => return known
        | none => y) := by
  intro e s hmirrors
  have hsize : index < s.done.size := by rw [← hmirrors.memo, hmirrors.memo_size]; exact hindex
  have hdone : s.done[index]? = some s.done[index] := Array.getElem?_eq_getElem hsize
  have hmemo : e.memo[index]? = some s.done[index] := by rw [hmirrors.memo, hdone]
  have hget : (get >>= fun s => match s.done[index]?.join with
        | some known => Pure.pure known
        | none => y : Rebuilt.M _) s =
      (match s.done[index]?.join with
        | some known => Pure.pure known
        | none => y : Rebuilt.M _) s := rfl
  rw [bind_apply, fetch_eq hmemo, hget, hdone]
  cases s.done[index] with
  | some known => exact ⟨e, rfl, hmirrors⟩
  | none => exact h e s hmirrors

/-- Every member of an entry that can be looked up is known. The induction is on the entries that
may still be opened inside each other. -/
theorem expand_follows
    (hknown : ∀ entry ∈ raw, ∀ code ∈ entry.members, Entry.knownCode raw.size code = true)
    (limit : Nat) (hindex : index < raw.size) (hnew : index ∉ path) :
    Follows raw.size path path (expand raw limit index) (Rebuilt.expand raw limit path index) := by
  have hraw : raw[index]? = some raw[index] := Array.getElem?_eq_getElem hindex
  induction limit generalizing path index with
  | zero =>
    rw [expand, Rebuilt.expand]
    exact memo_follows hindex (.fail _)
  | succ limit ih =>
    unfold expand Rebuilt.expand
    rw [hraw]
    refine memo_follows hindex (.ahead (fun e s h => open_mirrors h hindex) ?_)
    refine .bind (.composite raw[index] fun code hcode => ?_) fun built => ?_
    · refine member_follows (hknown _ (Array.getElem_mem hindex) code hcode) fun i hi hnew' => ?_
      exact ih hi hnew' (Array.getElem?_eq_getElem hi)
    · refine .ahead (fun e s h => close_mirrors h hindex hnew) ?_
      exact (setMemo_follows hindex _).bind fun _ => .pure _

end

def build (raw : Array Entry) (codes : List Int) :
    Access Expander (List (Composite Ty) × List Ty) := do
  let entries ← (List.range raw.size).mapM fun index => do
    return (← expand raw maxDepth index).1
  let args ← codes.mapM fun code => do
    return (← member (expand raw maxDepth) code).1
  return (entries, args)

theorem empty_mirrors (count : Nat) : Mirrors count [] (empty count) (.empty count) := by
  refine ⟨rfl, rfl, Array.size_replicate, Array.size_replicate, Array.size_replicate,
    fun i hi => ?_⟩
  rw [empty, Array.getElem?_replicate, if_pos hi]
  rfl

end Expander

namespace Access
variable {σ τ α : Type}

def within (x : Access τ α) (start : τ) : Access σ (α × τ) := fun s =>
  match x start with
  | .ok (.ok a, t) => .ok (.ok (a, t), s)
  | .ok (.error e, _) => .ok (.error e, s)
  | .error v => .error v

def rebuild (raw : Array Entry) (codes : List Int) : Access σ (Table × List Ty) := do
  let ((entries, args), state) ← within (Expander.build raw codes) (.empty raw.size)
  let named := (List.range raw.size).filter fun index => state.labelled[index]?.getD false
  return (⟨entries, named.map fun index => (entryLabel index, (index : Int))⟩, args)

def readPrelude : Access Buffer (Table × List Ty) := do
  let tag ← (bytes magic.length).orFail .badMagic
  if tag = magic then
    let count ← length
    let entries := (← times count readEntry).toArray
    entries.toList.forM fun e => e.members.forM (checkCode count)
    (entries.toList.flatMap Entry.methods).forM (checkMethod entries)
    let codes ← readCodes
    codes.forM (checkCode count)
    rebuild entries codes
  else fail .badMagic

/-- Where every code is known, types are rebuilt without a look-up out of range. -/
theorem rebuild_eq {raw : Array Entry} {codes : List Int}
    (hraw : ∀ entry ∈ raw, ∀ code ∈ entry.members, Entry.knownCode raw.size code = true)
    (hcodes : ∀ code ∈ codes, Entry.knownCode raw.size code = true) :
    (rebuild raw codes : Access σ (Table × List Ty)) = ofExcept (Table.rebuild raw codes) := by
  have hexpand : ∀ index, index < raw.size → Expander.Follows raw.size [] []
      (Expander.expand raw maxDepth index) (Rebuilt.expand raw maxDepth [] index) :=
    fun index hindex => Expander.expand_follows hraw maxDepth hindex List.not_mem_nil
  have hentries : ∀ index ∈ List.range raw.size, Expander.Follows raw.size [] []
      (Expander.expand raw maxDepth index >>= fun r => Pure.pure r.1)
      (Rebuilt.expand raw maxDepth [] index >>= fun r => Pure.pure r.1) :=
    fun index hindex => (hexpand index (List.mem_range.mp hindex)).bind fun _ => .pure _
  have hargs : ∀ code ∈ codes, Expander.Follows raw.size [] []
      (Expander.member (Expander.expand raw maxDepth) code >>= fun r => Pure.pure r.1)
      (Rebuilt.member (Rebuilt.expand raw maxDepth) [] code >>= fun r => Pure.pure r.1) :=
    fun code hcode => (Expander.member_follows (hcodes code hcode) fun index hindex _ =>
      hexpand index hindex).bind fun _ => .pure _
  have hbuild : Expander.Follows raw.size [] [] (Expander.build raw codes) _ :=
    (Expander.Follows.mapM _ hentries).bind fun entries =>
      (Expander.Follows.mapM _ hargs).bind fun args => .pure (entries, args)
  have hrun := hbuild _ _ (Expander.empty_mirrors raw.size)
  funext s
  unfold rebuild Table.rebuild
  dsimp only [StateT.run]
  rw [bind_apply, within]
  split at hrun
  · rename_i hmodel
    obtain ⟨e, hgo, hmirrors⟩ := hrun
    simp only [hgo, hmirrors.labelled, hmodel]
    rfl
  · rename_i hmodel
    obtain ⟨e, hgo⟩ := hrun
    simp only [hgo, hmodel]
    rfl

theorem forM_ofExcept (items : List α) (f : α → Except Fault Unit) :
    (items.forM fun a => (ofExcept (f a) : Access σ Unit)) = ofExcept (items.forM f) := by
  induction items with
  | nil => rfl
  | cons a items ih =>
    rw [List.forM_eq_forM, List.forM_eq_forM, List.forM_cons, List.forM_cons]
    cases f a with
    | error e => rfl
    | ok u => exact ih

end Access

open Access

theorem Access.Refines.ofExcept_bind {α β : Type} {c : Except Fault α} {f : α → Access Buffer β}
    {g : α → Reader β} (h : ∀ a, c = .ok a → Refines (f a) (g a)) :
    Refines (Access.ofExcept c >>= f) (Step.ofExcept c >>= g) :=
  (Refines.ofExcept c).bind_of fun _ a _ ha => h a (Step.ofExcept_eq_ok.mp ha).1

theorem refines_readPrelude : Refines readPrelude Table.readPrelude := by
  refine ((refines_bytes _).orFail _).bind fun tag => .ite (fun _ => ?_) fun _ => .fail _
  refine refines_length.bind fun count => ?_
  refine (Entry.refines_read.times count).bind_of fun bytes entries rest hentries => ?_
  have hsize : entries.toArray.size = count := (Step.times_eq_ok.mp hentries).1
  dsimp only
  simp only [Entry.forM_checkCode, forM_ofExcept]
  refine .ofExcept_bind fun _ hcodes => ?_
  have hraw : ∀ entry ∈ entries.toArray, ∀ code ∈ entry.members,
      Entry.knownCode entries.toArray.size code = true := by
    intro entry hentry
    rw [hsize]
    exact Table.checkCodes_eq_ok.mp (forM_eq_ok.mp hcodes entry (Array.mem_toList_iff.mpr hentry))
  rw [Entry.forM_checkMethod hraw]
  refine .ofExcept_bind fun _ _ => Entry.refines_readCodes.bind fun codes => ?_
  refine .ofExcept_bind fun _ hargs => ?_
  rw [rebuild_eq hraw (hsize.symm ▸ Table.checkCodes_eq_ok.mp hargs)]
  exact .ofExcept _

end Didl
