import Didl.Proofs.Restating
import Didl.Proofs.Wording

namespace Didl.Idl

namespace Layout

theorem digitsValue?_digits {cs : List Char} (h : ∀ c ∈ cs, c.isDigit = true) :
    digitsValue? 10 cs = some (Nat.ofDigitChars 10 cs 0) := by
  have hfold : ∀ (cs : List Char) (n : Nat), (∀ c ∈ cs, c.isDigit = true) →
      cs.foldlM (fun n c => do
        let d ← hexDigitValue? c
        if d < 10 then some (10 * n + d) else none) n = some (Nat.ofDigitChars 10 cs n) := by
    intro cs
    induction cs with
    | nil => exact fun _ _ => rfl
    | cons c cs ih =>
      intro n h
      obtain ⟨hc, hcs⟩ := List.forall_mem_cons.mp h
      have hcode : 48 ≤ c.toNat ∧ c.toNat ≤ 57 := by
        simp only [Char.isDigit, Bool.and_eq_true, decide_eq_true_eq, ge_iff_le,
          UInt32.le_iff_toNat_le] at hc
        exact hc
      have hvalue : hexDigitValue? c = some (c.toNat - 48) := by
        rw [hexDigitValue?, if_pos ⟨hcode.1, hcode.2⟩]
      rw [List.foldlM_cons, hvalue, Nat.ofDigitChars_cons, ← ih _ hcs]
      simp only [Option.bind_eq_bind, Option.bind_some]
      rw [if_pos (by omega)]
      rfl
  exact hfold cs 0 h

/-- A number that is written in base ten is read back. -/
theorem numeral?_toString (id : UInt32) : numeral? (toString id.toNat) = some id := by
  have hfilter : (toString id.toNat).toList.filter (· != '_') = (toString id.toNat).toList := by
    refine List.filter_eq_self.mpr fun c hc => ?_
    simpa using fun heq : c = '_' => not_mem_toString _ rfl (heq ▸ hc)
  have hnatural : naturalOf? 10 (toString id.toNat).toList = some id.toNat := by
    unfold naturalOf?
    split
    · rename_i heq
      exact absurd (heq ▸ List.mem_cons_self) (not_mem_toString _ rfl)
    · rw [if_neg (by simp), digitsValue?_digits (isDigit_of_toString _),
        toList_toString, Nat.ofDigitChars_toDigits (by omega) (by omega)]
  unfold numeral?
  rw [hfilter]
  split
  · rename_i heq
    exact absurd (heq ▸ List.mem_cons_of_mem _ List.mem_cons_self) (not_mem_toString _ rfl)
  · rename_i heq
    exact absurd (heq ▸ List.mem_cons_of_mem _ List.mem_cons_self) (not_mem_toString _ rfl)
  · rw [hnatural, Option.bind_some, if_pos id.toNat_lt, UInt32.ofNat_toNat]

end Layout

namespace Grammar
open TokenReader
variable {α β : Type}

/-- Tokens with certain words spell something of a kind, whatever follows. -/
def Spelt (item : List Token → β → List Token → Prop) (words : List String) (P : β → Prop) : Prop :=
  ∀ ts rest, ts.map Token.text = words → ∃ b, item (ts ++ rest) b rest ∧ P b

/-- One word. -/
theorem Spelt.word {item : List Token → β → List Token → Prop} {word : String} {P : β → Prop}
    (h : ∀ (token : Token) rest, token.text = word → ∃ b, item (token :: rest) b rest ∧ P b) :
    Spelt item [word] P := by
  intro ts rest hts
  obtain ⟨token, ts, rfl, htoken, hts⟩ := List.map_eq_cons_iff.mp hts
  obtain rfl := List.map_eq_nil_iff.mp hts
  exact h token rest htoken

/-- A word in front of something, which makes something else of it. -/
theorem Spelt.behind {item : List Token → α → List Token → Prop}
    {item' : List Token → β → List Token → Prop} {word : String} {words : List String}
    {P : α → Prop} {P' : β → Prop} (h : Spelt item words P) {made : α → β}
    (hitem : ∀ {token : Token} {ts a rest}, token.text = word → item ts a rest →
      item' (token :: ts) (made a) rest) (hmade : ∀ a, P a → P' (made a)) :
    Spelt item' (word :: words) P' := by
  intro ts rest hts
  obtain ⟨token, ts, rfl, htoken, hts⟩ := List.map_eq_cons_iff.mp hts
  obtain ⟨a, ha, hP⟩ := h ts rest hts
  exact ⟨made a, hitem htoken ha, hmade a hP⟩

section Items
variable {item : List Token → β → List Token → Prop} {words : α → List String}
  {R : α → β → Prop} {as : List α} (h : ∀ a ∈ as, Spelt item (words a) (R a))
include h

/-- Items with a separator between them. -/
theorem Spelt.separated (separator closing : String) :
    Spelt (SpellsItems item separator closing)
      (Didl.separated separator (as.map words) ++ [closing]) (List.Forall₂ R as) := by
  intro ts rest hts
  induction as generalizing ts with
  | nil =>
    obtain ⟨close, ts, rfl, hclose, hts⟩ := List.map_eq_cons_iff.mp hts
    obtain rfl := List.map_eq_nil_iff.mp hts
    exact ⟨[], .none hclose, .nil⟩
  | cons a as ih =>
    obtain ⟨ha, has⟩ := List.forall_mem_cons.mp h
    cases as with
    | nil =>
      obtain ⟨ts, ts', rfl, hfirst, hts⟩ := List.map_eq_append_iff.mp hts
      obtain ⟨close, ts', rfl, hclose, hts⟩ := List.map_eq_cons_iff.mp hts
      obtain rfl := List.map_eq_nil_iff.mp hts
      obtain ⟨b, hb, hR⟩ := ha ts (close :: rest) hfirst
      rw [List.append_assoc]
      exact ⟨[b], .last hb hclose, .cons hR .nil⟩
    | cons a' as =>
      simp only [List.map_cons, Didl.separated, List.append_assoc, List.cons_append] at hts
      obtain ⟨ts, ts', rfl, hfirst, hts⟩ := List.map_eq_append_iff.mp hts
      obtain ⟨sep, ts', rfl, hsep, hts⟩ := List.map_eq_cons_iff.mp hts
      obtain ⟨b, hb, hR⟩ := ha ts (sep :: (ts' ++ rest)) hfirst
      obtain ⟨bs, hbs, hRs⟩ := ih has ts' hts
      rw [List.append_assoc]
      exact ⟨b :: bs, .cons hb hsep hbs, .cons hR hRs⟩

/-- Items with a separator behind each. -/
theorem Spelt.terminated (separator closing : String) :
    Spelt (SpellsItems item separator closing)
      (as.flatMap (fun a => words a ++ [separator]) ++ [closing]) (List.Forall₂ R as) := by
  intro ts rest hts
  induction as generalizing ts with
  | nil =>
    obtain ⟨close, ts, rfl, hclose, hts⟩ := List.map_eq_cons_iff.mp hts
    obtain rfl := List.map_eq_nil_iff.mp hts
    exact ⟨[], .none hclose, .nil⟩
  | cons a as ih =>
    obtain ⟨ha, has⟩ := List.forall_mem_cons.mp h
    rw [List.flatMap_cons, List.append_assoc, List.append_assoc] at hts
    obtain ⟨ts, ts', rfl, hfirst, hts⟩ := List.map_eq_append_iff.mp hts
    obtain ⟨sep, ts', rfl, hsep, hts⟩ := List.map_eq_cons_iff.mp hts
    obtain ⟨b, hb, hR⟩ := ha ts (sep :: (ts' ++ rest)) hfirst
    obtain ⟨bs, hbs, hRs⟩ := ih has ts' hts
    rw [List.append_assoc]
    exact ⟨b :: bs, .cons hb hsep hbs, .cons hR hRs⟩

end Items

theorem Spelt.enclosed {item : List Token → β → List Token → Prop} {words : List String}
    {P : List β → Prop} {separator closing : String}
    (h : Spelt (SpellsItems item separator closing) words P) (opening : String) :
    Spelt (SpellsEnclosed opening separator closing item) (opening :: words) P :=
  h.behind .mk fun _ hP => hP

end Grammar

open Grammar

namespace Scope
variable {scope : Scope}

def Recites (scope : Scope) (type : Ty) : Prop :=
  Spelt SpellsType type.words (scope.Denotes · type)

section Recites
variable {type : Ty}

theorem recites_prim (p : Prim) : scope.Recites (.prim p) := by
  refine Spelt.word fun token rest htoken => ?_
  have hkeyword : Keyword.isPrimitive token.text = true ∧
      scope.Denotes (.primitive token.text) (.prim p) := by
    rw [htoken]
    cases p <;> exact ⟨by decide, rfl, rfl⟩
  exact ⟨_, .primitive hkeyword.1, hkeyword.2⟩

theorem recites_named {x : String} {e : TypeExpr} (hx : scope.Defines x e)
    (hname : Word.isName x = true) (hstarts : Keyword.startsType x = false) :
    scope.Recites (.named x) := by
  refine Spelt.word fun token rest htoken => ?_
  obtain rfl : token.text = x := htoken
  exact ⟨_, .name hname hstarts, denotes_name hx token.position⟩

theorem recites_opt (h : scope.Recites type) : scope.Recites (.composite (.opt type)) := by
  rw [Recites, Ty.words_composite]
  exact h.behind .opt fun _ => denotes_opt

theorem recites_vec (h : scope.Recites type) : scope.Recites (.composite (.vec type)) := by
  have hvec : Spelt SpellsType ("vec" :: type.words)
      (scope.Denotes · (.composite (.vec type))) := h.behind .vec fun _ => denotes_vec
  have hblob : Spelt SpellsType ["blob"] (scope.Denotes · (.composite (.vec (.prim .nat8)))) :=
    Spelt.word fun _ _ htoken => ⟨_, .blob htoken, rfl, rfl⟩
  rw [Recites, Ty.words_composite]
  cases type with
  | prim p =>
    cases p with
    | nat8 => exact hblob
    | _ => exact hvec
  | named | composite => exact hvec

/-- A label is read as the number and the name that it stands for. -/
theorem spells_label {token : Token} {id : UInt32} {name : Option String}
    (htoken : token.text = TypeWords.label id name)
    (hname : ∀ s, name = some s → Word.isName s = true ∧ id = labelId s) :
    ∃ l, SpellsLabel token l ∧ l.Means id name := by
  cases name with
  | some s =>
    obtain ⟨hword, rfl⟩ := hname s rfl
    obtain rfl : token.text = s := htoken
    exact ⟨_, .name hword, .name token.text⟩
  | none =>
    have htext : token.text = toString id.toNat := htoken
    exact ⟨_, .number (htext ▸ Word.isNumeral_toString _),
      .number (htext ▸ Layout.numeral?_toString id)⟩

/-- A field is read as one that declares what it is. -/
theorem spelt_field {f : Field Ty} (isVariant : Bool)
    (hname : ∀ s, f.name = some s → Word.isName s = true ∧ f.id = labelId s)
    (hbare : isVariant = true → f.type = .prim .null → ∀ s, f.name = some s →
      Keyword.startsType s = false)
    (htype : scope.Recites f.type) :
    Spelt (SpellsField SpellsType)
      (TypeWords.field isVariant ⟨f.id, f.name, (f.type, f.type.words)⟩)
      (scope.Restates isVariant f) := by
  intro ts rest hts
  rcases TypeWords.field_cases isVariant f f.type.words f.type.display with
    ⟨hvariant, hnull, hwords, _⟩ | ⟨hwords, _⟩
  · rw [hwords] at hts
    obtain ⟨token, ts, rfl, htoken, hts⟩ := List.map_eq_cons_iff.mp hts
    obtain rfl := List.map_eq_nil_iff.mp hts
    obtain ⟨l, hl, hmeans⟩ := spells_label htoken hname
    have hstarts : Keyword.startsType token.text = false := by
      rw [htoken]
      cases hlabel : f.name with
      | some s => exact hbare hvariant hnull s hlabel
      | none =>
        refine Bool.eq_false_iff.mpr fun hstarts => ?_
        have hword := Keyword.isName_of_startsType hstarts
        rw [TypeWords.label, Word.isName_of_isNumeral (Word.isNumeral_toString _)] at hword
        cases hword
    exact ⟨_, .label hl hstarts, .bare hvariant hmeans hnull⟩
  · rw [hwords] at hts
    obtain ⟨token, ts, rfl, htoken, hts⟩ := List.map_eq_cons_iff.mp hts
    obtain ⟨colon, ts, rfl, hcolon, hts⟩ := List.map_eq_cons_iff.mp hts
    obtain ⟨l, hl, hmeans⟩ := spells_label htoken hname
    obtain ⟨e, he, hdenotes⟩ := htype ts rest hts
    exact ⟨_, .labelled hl hcolon he, .typed hmeans hdenotes⟩

theorem spelt_fields {fs : List (Field Ty)} (isVariant : Bool)
    (h : ∀ f ∈ fs, Spelt (SpellsField SpellsType)
      (TypeWords.field isVariant ⟨f.id, f.name, (f.type, f.type.words)⟩)
      (scope.Restates isVariant f)) :
    Spelt (SpellsEnclosed "\x7b" ";" "\x7d" (SpellsField SpellsType))
      (TypeWords.fields isVariant (fs.map fun f => ⟨f.id, f.name, (f.type, f.type.words)⟩))
      (List.Forall₂ (scope.Restates isVariant) fs) := by
  rw [TypeWords.fields, List.map_map]
  exact (Spelt.separated h ";" "\x7d").enclosed "\x7b"

theorem spelt_tuple {types : List Ty} (h : ∀ t ∈ types, scope.Recites t) :
    Spelt (SpellsEnclosed "(" "," ")" (SpellsArgument SpellsType))
      (TypeWords.tuple (types.map fun t => (t, t.words)))
      (List.Forall₂ (fun t x => scope.Denotes x.type t) types) := by
  have hitem : ∀ t ∈ types, Spelt (SpellsArgument SpellsType) t.words
      (fun x => scope.Denotes x.type t) := by
    intro t ht ts rest hts
    obtain ⟨e, he, hdenotes⟩ := h t ht ts rest hts
    exact ⟨⟨none, e⟩, .plain he, hdenotes⟩
  rw [TypeWords.tuple, List.map_map]
  exact (Spelt.separated hitem "," ")").enclosed "("

theorem spells_modes {ts : List Token} (modes : List Mode)
    (hts : ts.map Token.text = modes.map Mode.keyword) (rest : List Token) :
    SpellsModes (ts ++ rest) (modes.map Mode.keyword) rest := by
  induction modes generalizing ts with
  | nil =>
    obtain rfl := List.map_eq_nil_iff.mp hts
    exact .nil rest
  | cons m modes ih =>
    obtain ⟨token, ts, rfl, htoken, hts⟩ := List.map_eq_cons_iff.mp hts
    rw [List.map_cons, ← htoken]
    exact .cons (by rw [htoken]; cases m <;> decide) (ih hts)

theorem recites_func {args results : List Ty} {modes : List Mode}
    (hlegal : scope.Legal (.func args results modes)) (hargs : ∀ t ∈ args, scope.Recites t)
    (hresults : ∀ t ∈ results, scope.Recites t) :
    scope.Recites (.composite (.func args results modes)) := by
  intro ts rest hts
  rw [Ty.words_composite] at hts
  simp only [Composite.map, TypeWords.ofComposite, List.append_assoc, List.cons_append] at hts
  obtain ⟨token, ts, rfl, htoken, hts⟩ := List.map_eq_cons_iff.mp hts
  obtain ⟨front, ts, rfl, hfront, hts⟩ := List.map_eq_append_iff.mp hts
  obtain ⟨arrow, ts, rfl, harrow, hts⟩ := List.map_eq_cons_iff.mp hts
  obtain ⟨back, ts, rfl, hback, hmodes⟩ := List.map_eq_append_iff.mp hts
  obtain ⟨as, has, hdenotes⟩ := spelt_tuple hargs front (arrow :: (back ++ (ts ++ rest))) hfront
  obtain ⟨rs, hrs, hdenotes'⟩ := spelt_tuple hresults back (ts ++ rest) hback
  obtain ⟨start, front, rfl, _⟩ := List.map_eq_cons_iff.mp hfront
  have hsignature : SpellsSignature SpellsType
      (start :: front ++ arrow :: (back ++ ts) ++ rest)
      (.func as rs (modes.map Mode.keyword)) rest := by
    rw [List.append_assoc, List.cons_append, List.cons_append, List.append_assoc]
    exact .mk has harrow hrs (spells_modes modes hmodes rest)
  exact ⟨_, .func htoken hsignature, denotes_func hlegal hdenotes hdenotes'⟩

/-- Behind the name of a method a function is spelled without its keyword. -/
theorem Recites.signature {args results : List Ty} {modes : List Mode}
    (h : scope.Recites (.composite (.func args results modes))) :
    Spelt (SpellsSignature SpellsType)
      (TypeWords.ofMethod (.composite (.func args results modes),
        (Ty.composite (.func args results modes)).words))
      (fun f => scope.Denotes (.form f) (.composite (.func args results modes))) := by
  intro ts rest hts
  have hwords : ((⟨"func", ⟨0, 0⟩⟩ : Token) :: ts).map Token.text =
      (Ty.composite (.func args results modes)).words := by
    rw [List.map_cons, hts, Ty.words_composite]
    rfl
  obtain ⟨e, he, hdenotes⟩ := h _ rest hwords
  rw [List.cons_append] at he
  generalize ts ++ rest = tokens at he ⊢
  cases he with
  | func _ hf => exact ⟨_, hf, hdenotes⟩
  | name _ hstarts => exact absurd hstarts (by decide)
  | primitive hprim => exact absurd hprim (by decide)
  | blob hword | opt hword | vec hword | record hword | variant hword | service hword =>
    exact absurd hword (by decide)

theorem spelt_method {m : Method Ty} (hname : Word.isName m.name = true)
    (hmethod : m.type.IsMethodType) (htype : scope.Recites m.type)
    (hnamed : ∀ x, m.type = .named x → Word.isName x = true ∧ (∃ e, scope.Defines x e) ∧
      scope.isFunction x = true) :
    Spelt (SpellsMethod SpellsType)
      (m.name :: ":" :: TypeWords.ofMethod (m.type, m.type.words))
      (fun x => x.name = m.name ∧ scope.Denotes x.type m.type ∧
        ∀ target p, x.type = .name target p → scope.isFunction target = true) := by
  obtain ⟨name, type⟩ := m
  intro ts rest hts
  obtain ⟨token, ts, rfl, htoken, hts⟩ := List.map_eq_cons_iff.mp hts
  obtain ⟨colon, ts, rfl, hcolon, hts⟩ := List.map_eq_cons_iff.mp hts
  obtain rfl : token.text = name := htoken
  cases type with
  | prim => exact hmethod.elim
  | named x =>
    obtain ⟨target, ts, rfl, htarget, hts⟩ := List.map_eq_cons_iff.mp hts
    obtain rfl := List.map_eq_nil_iff.mp hts
    obtain rfl : target.text = x := htarget
    obtain ⟨hword, ⟨e, he⟩, hfunction⟩ := hnamed target.text rfl
    refine ⟨_, .name (.bare hname) hcolon hword, rfl, denotes_name he _, ?_⟩
    rintro _ _ ⟨⟩
    exact hfunction
  | composite c =>
    cases c with
    | func args results modes =>
      obtain ⟨f, hf, hdenotes⟩ := htype.signature ts rest hts
      exact ⟨_, .signature (.bare hname) hcolon hf, rfl, hdenotes, nofun⟩
    | _ => exact hmethod.elim

theorem recites_composite {c : Composite Ty} (hwritable : c.Writable)
    (hascends : c.shape.Ascends) (hlegal : scope.Legal c)
    (hmembers : ∀ t ∈ c.members, scope.Recites t)
    (hnamed : ∀ x, .named x ∈ c.members → Word.isName x = true ∧ ∃ e, scope.Defines x e) :
    scope.Recites (.composite c) := by
  cases c with
  | opt t => exact recites_opt (hmembers t (List.mem_singleton_self t))
  | vec t => exact recites_vec (hmembers t (List.mem_singleton_self t))
  | record fs =>
    have hfields : ∀ f ∈ fs, Spelt (SpellsField SpellsType) _ (scope.Restates false f) :=
      fun f hf => spelt_field false (fun s hs => ⟨hwritable f hf s hs, hlegal f hf s hs⟩) nofun
        (hmembers _ (List.mem_map_of_mem hf))
    rw [Recites, Ty.words_composite]
    exact (spelt_fields false hfields).behind .record fun _ hxs => denotes_record hxs hascends
  | variant fs =>
    have hfields : ∀ f ∈ fs, Spelt (SpellsField SpellsType) _ (scope.Restates true f) :=
      fun f hf => spelt_field true (fun s hs => ⟨(hwritable f hf s hs).1, hlegal f hf s hs⟩)
        (fun _ hnull s hs => (hwritable f hf s hs).2 hnull) (hmembers _ (List.mem_map_of_mem hf))
    rw [Recites, Ty.words_composite]
    exact (spelt_fields true hfields).behind .variant fun _ hxs => denotes_variant hxs hascends
  | func args results modes =>
    obtain ⟨hargs, hresults⟩ := List.forall_mem_append.mp hmembers
    exact recites_func hlegal hargs hresults
  | service ms =>
    have hmethods := (Spelt.terminated (fun m hm => spelt_method (hwritable m hm).1
      (hwritable m hm).2 (hmembers _ (List.mem_map_of_mem hm)) fun x hx =>
        let ⟨hword, hdefines⟩ := hnamed x (hx ▸ List.mem_map_of_mem hm)
        ⟨hword, hdefines, hlegal m hm x hx⟩) ";" "\x7d").enclosed "\x7b"
    rw [Recites, Ty.words_composite]
    simp only [Composite.map, TypeWords.ofComposite, List.flatMap_map]
    exact hmethods.behind .service fun _ hxs => denotes_service hascends hxs
  | future => exact hwritable.elim

/-- The words of a type that an accepted expression denotes spell one that denotes it too. -/
theorem recites_of_denotes (haccepted : scope.Accepted) {e : TypeExpr}
    (h : scope.Denotes e type) (hwritable : type.Writable) : scope.Recites type := by
  have hname {x : String} {e : TypeExpr} (hx : scope.Defines x e)
      (hwritable : Ty.Writable (.named x)) : scope.Recites (.named x) := by
    refine recites_named hx (Ty.writable_named.mp hwritable) ?_
    obtain ⟨d, hd, hdname⟩ := List.mem_map.mp (mem_names_of_body? hx.1)
    have hreserved := (((checkNames_eq_ok scope []).mp haccepted.names).1 d hd).1
    rw [hdname, Keyword.isReserved, Bool.or_eq_false_iff, Bool.or_eq_false_iff] at hreserved
    exact hreserved.1.2
  induction e using TypeExpr.induct generalizing type with
  | name y p =>
    rcases typeOfName_eq_ok h.2 with ⟨p, rfl⟩ | ⟨x, e, _, hx, rfl⟩
    · exact recites_prim p
    · exact hname hx hwritable
  | primitive keyword =>
    obtain ⟨p, rfl⟩ := primitiveOf_eq_ok h.2
    exact recites_prim p
  | blob =>
    cases h.2
    exact recites_vec (recites_prim .nat8)
  | form f ih =>
    obtain ⟨hcheck, htype⟩ := h
    obtain ⟨d, c, hd, hc, rfl⟩ := typeOf_form.mp htype
    obtain ⟨hascends, hlegal⟩ := legal_of_layout hcheck hd hc
    obtain ⟨hcomposite, hmembers⟩ := Ty.writable_composite.mp hwritable
    have hdenoted : ∀ t ∈ c.canonical.members, ∃ e ∈ d.members, scope.Denotes e t := by
      intro t ht
      obtain ⟨e, he, htype⟩ := exists_of_mem_right (Composite.rel_of_mapM hc).members
        (Composite.mem_members_canonical.mp ht)
      exact ⟨e, he, (layout_checked hcheck hd).2 e he, htype⟩
    refine recites_composite hcomposite hascends hlegal (fun t ht => ?_) fun x hx => ?_
    · obtain ⟨e, he, hdenotes⟩ := hdenoted t ht
      exact ih d hd e he hdenotes (hmembers t ht)
    · obtain ⟨e, _, hdenotes⟩ := hdenoted _ hx
      exact ⟨Ty.writable_named.mp (hmembers _ hx), defines_of_named hdenotes.2⟩

end Recites

end Scope

namespace Program

/-- A definition of a type is read as one whose expression denotes the type. -/
theorem ofSource_definition {scope : Scope} {type : Ty} (hrecites : scope.Recites type)
    (hwritable : type.Writable) {fresh : String} (hname : Word.isName fresh = true) :
    ∃ d, ofSource ("type " ++ fresh ++ " = " ++ type.text ++ ";") = .ok ⟨[], [d], none⟩ ∧
      d.name = fresh ∧ scope.Denotes d.type type := by
  have hlexes : Lexes none ("type " ++ fresh ++ " = " ++ type.text ++ ";").toList
      ("type" :: fresh :: "=" :: (type.words ++ [";"])) := by
    simp only [String.toList_append, List.append_assoc]
    have hword : Word.isName "type" = true := by decide
    refine .name hword rfl rfl (.blank (.name hname rfl rfl (.blank (.mark "=" (by decide)
      (.blank ((Prints.of_writable hwritable).1 _ _ _ rfl rfl fun after => ?_))))))
    exact .mark ";" (by decide) (.nil _)
  obtain ⟨tokens, hscan, htexts⟩ := hlexes.scan ⟨1, 1⟩ []
  simp only [List.cons_append, List.append_assoc] at htexts
  obtain ⟨word, tokens, rfl, hword, htexts⟩ := List.map_eq_cons_iff.mp htexts
  obtain ⟨name, tokens, rfl, hfresh, htexts⟩ := List.map_eq_cons_iff.mp htexts
  obtain ⟨equals, tokens, rfl, hequals, htexts⟩ := List.map_eq_cons_iff.mp htexts
  obtain ⟨ts, tokens, rfl, hts, htexts⟩ := List.map_eq_append_iff.mp htexts
  obtain ⟨semicolon, tokens, rfl, hsemicolon, htexts⟩ := List.map_eq_cons_iff.mp htexts
  obtain ⟨last, tokens, rfl, hlast, htexts⟩ := List.map_eq_cons_iff.mp htexts
  obtain rfl := List.map_eq_nil_iff.mp htexts
  obtain ⟨e, he, hdenotes⟩ := hrecites ts [semicolon, last] hts
  obtain rfl : name.text = fresh := hfresh
  refine ⟨⟨name.text, name.position, e⟩, ofSource_eq_ok.mpr ⟨_, hscan, ?_⟩, rfl, hdenotes⟩
  exact .mk (.definition hword hname hequals he (.present hsemicolon) (.nil [last]))
    (.none [last]) hlast

/-- The text of a type that a program defines may be the body of a definition of a new name: it is
read, the program compiles with it, and the new name has this type while all others keep theirs. -/
theorem interface_rereads {program : Program} {i : Interface} (h : program.interface = .ok i)
    {x : String} {type : Ty} (hx : (x, type) ∈ i.definitions) (hwritable : type.Writable)
    {fresh : String} (hname : Word.isName fresh = true)
    (hreserved : Keyword.isReserved fresh = false) (hnew : fresh ∉ i.definitions.map Prod.fst) :
    ∃ d j, ofSource ("type " ++ fresh ++ " = " ++ type.text ++ ";") = .ok ⟨[], [d], none⟩ ∧
      interface { program with definitions := program.definitions ++ [d] } = .ok j ∧
      j.definition? fresh = some type ∧ ∀ y, y ≠ fresh → j.definition? y = i.definition? y := by
  obtain ⟨hcheck, _, htyped, _, _⟩ := interface_eq_ok.mp h
  obtain ⟨haccepted, _⟩ := check_eq_ok.mp hcheck
  obtain ⟨d, hd, _, htype⟩ := exists_of_mem_right htyped hx
  have hrecites := Scope.recites_of_denotes haccepted ⟨haccepted.exprs d hd, htype⟩ hwritable
  obtain ⟨d', hsource, rfl, hdenotes⟩ := ofSource_definition hrecites hwritable hname
  obtain ⟨j, hj, hdefinitions⟩ := interface_grow h hnew hreserved hdenotes.1 hdenotes.2
  refine ⟨d', j, hsource, hj, ?_, fun y hy => ?_⟩
  · have hnone : i.definitions.lookup d'.name = none := by
      refine List.lookup_eq_none_iff.mpr fun p hp => ?_
      simpa using fun heq : d'.name = p.1 => hnew (heq ▸ List.mem_map_of_mem hp)
    rw [Interface.definition?, hdefinitions, List.lookup_append, hnone]
    simp [List.lookup]
  · have hother : (y == d'.name) = false := by simpa using hy
    rw [Interface.definition?, hdefinitions, List.lookup_append]
    simp [List.lookup, hother, Interface.definition?]

def ringType : Ty :=
  .composite (.record [⟨0, none, .prim .nat⟩, ⟨4, none, .composite (.vec (.prim .nat8))⟩,
    ⟨1224901875, some "next", .composite (.variant [⟨5047259, some "end", .prim .null⟩,
      ⟨1214308245, some "more", .named "B"⟩])⟩])

theorem interface_rereads_ring :
    ∃ i d j, ringProgram.interface = .ok i ∧ ("B", ringType) ∈ i.definitions ∧
      ringType.Writable ∧ "Ring" ∉ i.definitions.map Prod.fst ∧
      ofSource ("type " ++ "Ring" ++ " = " ++ ringType.text ++ ";") = .ok ⟨[], [d], none⟩ ∧
      interface { ringProgram with definitions := ringProgram.definitions ++ [d] } = .ok j ∧
      j.definition? "Ring" = some ringType ∧
      ∀ y, y ≠ "Ring" → j.definition? y = i.definition? y := by
  have hdefinitions : ringProgram.interface.map Interface.definitions =
      .ok [("A", .named "B"), ("B", ringType), ("C", .prim .nat)] := by cbv
  cases hi : ringProgram.interface with
  | error e =>
    rw [hi] at hdefinitions
    cases hdefinitions
  | ok i =>
    rw [hi] at hdefinitions
    have hlist : i.definitions = _ := Except.ok.inj hdefinitions
    have hx : ("B", ringType) ∈ i.definitions := by
      rw [hlist]
      simp
    have hnew : "Ring" ∉ i.definitions.map Prod.fst := by
      rw [hlist]
      simp
    have hwritable : ringType.Writable := by
      simp [ringType, Composite.members, Composite.Writable]
      decide
    have hring : Word.isName "Ring" = true := by decide
    obtain ⟨d, j, hrest⟩ := interface_rereads hi hx hwritable hring (by decide) hnew
    exact ⟨i, d, j, rfl, hx, hwritable, hnew, hrest⟩

/-- A label that is shown without its quotes is read as two words. -/
theorem ofSource_splits_label :
    ∃ program i type, ofSource "type R = record \x7b \"B c\": text \x7d;" = .ok program ∧
      program.interface = .ok i ∧ ("R", type) ∈ i.definitions ∧
      type.text = "record \x7b B c: text \x7d" ∧
      ofSource "type Fresh = record \x7b B c: text \x7d;" =
        .error (.parse (.expected "\";\" or \"\x7d\"" "c") ⟨1, 25⟩) := by
  have hparts : ((ofSource "type R = record \x7b \"B c\": text \x7d;").bind
        (fun program => program.interface.map Interface.definitions),
      ofSource "type Fresh = record \x7b B c: text \x7d;") =
      (.ok [("R", .composite (.record [⟨3289349, some "B c", .prim .text⟩]))],
        .error (.parse (.expected "\";\" or \"\x7d\"" "c") ⟨1, 25⟩)) := by cbv
  obtain ⟨hdefinitions, hread⟩ := Prod.mk.inj hparts
  obtain ⟨program, hprogram, hdefinitions⟩ := except_bind_eq_ok.mp hdefinitions
  cases hi : program.interface with
  | error e =>
    rw [hi] at hdefinitions
    cases hdefinitions
  | ok i =>
    rw [hi] at hdefinitions
    have hlist : i.definitions = _ := Except.ok.inj hdefinitions
    have hx : ("R", _) ∈ i.definitions := hlist ▸ List.mem_singleton_self _
    exact ⟨program, i, _, hprogram, hi, hx, by decide, hread⟩

end Program
end Didl.Idl
