import Didl.Proofs.Environments
import Didl.Proofs.Providing
import Didl.Proofs.Verdict

namespace Didl.Table
variable {env t u : Table} {types : List Ty} {type : Ty}

/-- Types whose names are all bound in a copy show alike in it, so values are encoded alike. -/
theorem Copies.showAlike (h : Copies env types t) :
    ShowAlike (fun a b => a.same b = true ∧ ∀ x ∈ a.names, t.isBound x = true) env t :=
  .of_bisimulation h.isBisimulation

/-- A table that serves a type of another one and nothing else: it binds the names that the type
leads to, and to the same types up to names of fields; its entries mention no others and can be
written; and every value is encoded as the type alike, or refused with a fault of one kind. -/
structure Serves (t env : Table) (type : Ty) : Prop where
  names : ∀ x, t.isBound x = true ↔ env.Reach type (.named x)
  heads : ∀ x, t.isBound x = true → ∃ head head', env.resolve x = .ok head ∧
    t.resolve x = .ok head' ∧ head.type.Same head'.type
  bound : ∀ c ∈ t.entries, ∀ x ∈ (Ty.composite c).names, t.isBound x = true
  written : ∀ c ∈ t.entries, ∃ bytes, t.entryBytes (.composite c) = .ok bytes
  encodes : ∀ v : Value, Concur Eq (v.encode env type) (v.encode t type)

/-- A copy for one type serves it. -/
theorem Copies.serves (h : Copies env [type] t) (hnames : ∀ x ∈ type.names, t.isBound x = true)
    {registered : List Ty} (hexact : t.Exact registered) : t.Serves env type := by
  have hall : ∀ type' ∈ [type], ∀ x ∈ type'.names, t.isBound x = true :=
    List.forall_mem_singleton.mpr hnames
  constructor
  case names =>
    intro x
    constructor
    · intro hx
      obtain ⟨type', htype, hreach⟩ := h.reached x hx
      rwa [List.mem_singleton.mp htype] at hreach
    · exact fun hx => h.reach_bound hnames hx x (List.mem_singleton_self x)
  case heads =>
    intro x hx
    obtain ⟨head, head', hhead, hhead', hsame, _⟩ := h.heads x hx
    exact ⟨head, head', hhead, hhead', hsame⟩
  case bound => exact fun c hc => h.entry_bound hall hc
  case written =>
    intro c hc
    obtain ⟨e, he⟩ := toEntry_returns hexact hc (h.entry_bound hall hc)
    exact ⟨e.bytes, by rw [entryBytes, he]; rfl⟩
  case encodes =>
    exact fun v => Value.encode_concur h.showAlike v ⟨Ty.same_refl type, hnames⟩

/-- Copying the names of a type into an empty table never fails, if they are bound, and binds those
that the type leads to and no others. With the type itself the copy serves it. -/
theorem copyLabels_serves (he : env.Made) (hc : env.Closed type) :
    ∃ sub, env.copyLabels type {} = (none, sub) ∧
      (∀ x, sub.isBound x = true ↔ env.Reach type (.named x)) ∧
      ∃ code t, sub.register type = .ok (code, t) ∧ t.Serves env type := by
  obtain ⟨sub, hsub⟩ := copyLabels_closed he.sound hc {}
  obtain ⟨hcopies, _, hnames⟩ :=
    (copies_empty env [type]).copyLabels (List.mem_singleton_self type) hsub
  obtain ⟨code, t, hreg⟩ := register_returns fun x (hx : type = .named x) =>
    hnames x (hx ▸ List.mem_singleton_self x)
  have hlabels := (register_eq_ok hreg).labels
  have hexact := Call.runAll_exact .empty [.copyLabels env type, .register type]
  have hrun : Call.runAll [.copyLabels env type, .register type] {} = t := by
    simp only [Call.runAll, List.foldl_cons, List.foldl_nil, Call.run, hsub, hreg]
  rw [hrun] at hexact
  have hserves := (hcopies.register (List.mem_singleton_self type) hreg).serves
    (fun x hx => by rw [isBound_of_labels hlabels]; exact hnames x hx) hexact
  refine ⟨sub, hsub, fun x => ?_, code, t, hreg, hserves⟩
  rw [← hserves.names x, isBound_of_labels hlabels]

def lists : Table :=
  ⟨[.opt (.composite (.record [⟨0, none, .prim .nat⟩, ⟨1, none, .named "List"⟩])),
    .record [⟨0, none, .prim .nat⟩, ⟨1, none, .named "List"⟩], .vec (.prim .text),
    .record [⟨7, none, .named "List"⟩]],
    [("List", 0), ("Amount", -3), ("Unused", 2), ("Wrapper", 3)]⟩

theorem lists_built : lists.Built := by
  have hlist : registerLabel {} "List" (.composite (.opt (.composite (.record
      [⟨0, none, .prim .nat⟩, ⟨1, none, .named "List"⟩])))) =
      .ok (0, ⟨lists.entries.take 2, lists.labels.take 1⟩) := by cbv
  have hamount : registerLabel ⟨lists.entries.take 2, lists.labels.take 1⟩ "Amount" (.prim .nat) =
      .ok (-3, ⟨lists.entries.take 2, lists.labels.take 2⟩) := by cbv
  have hunused : registerLabel ⟨lists.entries.take 2, lists.labels.take 2⟩ "Unused"
      (.composite (.vec (.prim .text))) =
      .ok (2, ⟨lists.entries.take 3, lists.labels.take 3⟩) := by cbv
  have hwrapper : registerLabel ⟨lists.entries.take 3, lists.labels.take 3⟩ "Wrapper"
      (.composite (.record [⟨7, none, .named "List"⟩])) = .ok (3, lists) := by cbv
  exact .registerLabel (.registerLabel (.registerLabel (.registerLabel .empty hlist) hamount)
    hunused) hwrapper

def transfer : Ty := .composite (.func [.named "Wrapper", .named "Amount"] [] [.oneway])

def transferParts : List Ty :=
  [transfer, .named "Wrapper", .named "Amount", .named "List", .prim .nat,
    .composite (.record [⟨0, none, .prim .nat⟩, ⟨1, none, .named "List"⟩])]

theorem transfer_closed : lists.Closed transfer := by
  refine .of_invariant (P := (· ∈ transferParts)) ?_ ?_ List.mem_cons_self
  · intro u f hu hf v hv
    have hstep : ∀ vs, (lists.former u).map Former.members = some vs → vs ⊆ transferParts →
        v ∈ transferParts := by
      intro vs hvs hsub
      rw [hf] at hvs
      cases hvs
      exact hsub hv
    simp only [transferParts, List.mem_cons, List.not_mem_nil, or_false] at hu
    rcases hu with rfl | rfl | rfl | rfl | rfl | rfl
    · exact hstep [.named "Wrapper", .named "Amount"] rfl (by simp [transferParts])
    · exact hstep [.named "List"] rfl (by simp [transferParts])
    · exact hstep [] rfl (by simp)
    · exact hstep [.composite (.record [⟨0, none, .prim .nat⟩, ⟨1, none, .named "List"⟩])] rfl
        (by simp [transferParts])
    · exact hstep [] rfl (by simp)
    · exact hstep [.prim .nat, .named "List"] rfl (by simp [transferParts])
  · intro x hx
    have hname : x = "Wrapper" ∨ x = "Amount" ∨ x = "List" := by
      simpa [transferParts, transfer] using hx
    rcases hname with rfl | rfl | rfl <;> decide

/-- A function takes two names along and a third one that they lead to. -/
theorem copyLabels_serves_transfer :
    ∃ sub, lists.copyLabels transfer {} = (none, sub) ∧
      (∀ x, sub.isBound x = true ↔ lists.Reach transfer (.named x)) ∧
      ∃ code t, sub.register transfer = .ok (code, t) ∧ t.Serves lists transfer :=
  copyLabels_serves (.built lists_built) transfer_closed

end Didl.Table
