import Didl.Proofs.Lexing
import Didl.Proofs.Types
import Didl.Type.Display

namespace Didl

/-- Whether a type is one that parsed source gives to methods. -/
def Ty.IsMethodType : Ty → Prop
  | .named _ | .composite (.func ..) => True
  | _ => False

/-- Whether the labels of a composite read as they are shown: they are names, no alternative that is
shown by its label alone is a word that starts a type, and methods are functions or names. -/
def Composite.Writable : Composite Ty → Prop
  | .record fs => ∀ f ∈ fs, ∀ s, f.name = some s → Idl.Word.isName s = true
  | .variant fs => ∀ f ∈ fs, ∀ s, f.name = some s →
      Idl.Word.isName s = true ∧ (f.type = .prim .null → Idl.Keyword.startsType s = false)
  | .service ms => ∀ m ∈ ms, Idl.Word.isName m.name = true ∧ m.type.IsMethodType
  | .future .. => False
  | _ => True

/-- Types that are shown in words of the language. -/
@[mk_iff]
structure Ty.Writable (type : Ty) : Prop where
  names : ∀ x ∈ type.names, Idl.Word.isName x = true
  parts : ∀ c ∈ type.parts, c.Writable

@[simp]
theorem Ty.writable_prim (p : Prim) : (Ty.prim p).Writable :=
  ⟨List.forall_mem_nil _, List.forall_mem_nil _⟩

@[simp]
theorem Ty.writable_named {x : String} :
    (Ty.named x).Writable ↔ Idl.Word.isName x = true :=
  ⟨fun h => h.names x (List.mem_singleton_self x),
    fun h => ⟨List.forall_mem_singleton.mpr h, List.forall_mem_nil _⟩⟩

@[simp]
theorem Ty.writable_composite {c : Composite Ty} :
    (Ty.composite c).Writable ↔ c.Writable ∧ ∀ m ∈ c.members, m.Writable := by
  rw [writable_iff, names_composite, parts_composite, List.forall_mem_flatMap,
    List.forall_mem_cons, List.forall_mem_flatMap]
  constructor
  · rintro ⟨hnames, hc, hparts⟩
    exact ⟨hc, fun m hm => ⟨hnames m hm, hparts m hm⟩⟩
  · rintro ⟨hc, hmembers⟩
    exact ⟨fun m hm => (hmembers m hm).names, hc, fun m hm => (hmembers m hm).parts⟩

def separated (mark : String) : List (List String) → List String
  | [] => []
  | [words] => words
  | words :: more => words ++ mark :: separated mark more

namespace TypeWords

def label (id : UInt32) : Option String → String
  | some name => name
  | none => toString id.toNat

def field (bareNull : Bool) (f : Field (Ty × List String)) : List String :=
  match bareNull, f.type with
  | true, (.prim .null, _) => [label f.id f.name]
  | _, (_, words) => label f.id f.name :: ":" :: words

/-- A field is shown by its label alone or with its type behind it. -/
theorem field_cases (bareNull : Bool) (f : Field Ty) (words : List String) (text : TypeText) :
    (bareNull = true ∧ f.type = .prim .null ∧
      field bareNull ⟨f.id, f.name, (f.type, words)⟩ = [label f.id f.name] ∧
      TypeText.field bareNull ⟨f.id, f.name, (f.type, text)⟩ = label f.id f.name) ∨
    (field bareNull ⟨f.id, f.name, (f.type, words)⟩ = label f.id f.name :: ":" :: words ∧
      TypeText.field bareNull ⟨f.id, f.name, (f.type, text)⟩ =
        label f.id f.name ++ ": " ++ text.alone) := by
  obtain ⟨id, name, type⟩ := f
  cases name with
  | none | some =>
    cases bareNull with
    | false => exact .inr ⟨rfl, rfl⟩
    | true =>
      cases type with
      | prim p =>
        cases p with
        | null => exact .inl ⟨rfl, rfl, rfl, rfl⟩
        | _ => exact .inr ⟨rfl, rfl⟩
      | named | composite => exact .inr ⟨rfl, rfl⟩

def fields (bareNull : Bool) (fs : List (Field (Ty × List String))) : List String :=
  "\x7b" :: separated ";" (fs.map (field bareNull)) ++ ["\x7d"]

def tuple (ts : List (Ty × List String)) : List String :=
  "(" :: separated "," (ts.map Prod.snd) ++ [")"]

def ofMethod : Ty × List String → List String
  | (.composite (.func ..), words) => words.tail
  | (_, words) => words

def method (m : Method (Ty × List String)) : List String :=
  m.name :: ":" :: ofMethod m.type ++ [";"]

def ofComposite : Composite (Ty × List String) → List String
  | .opt (_, inner) => "opt" :: inner
  | .vec (.prim .nat8, _) => ["blob"]
  | .vec (_, inner) => "vec" :: inner
  | .record fs => "record" :: fields false fs
  | .variant fs => "variant" :: fields true fs
  | .func args results modes =>
    "func" :: tuple args ++ "->" :: tuple results ++ modes.map Mode.keyword
  | .service ms => "service" :: "\x7b" :: ms.flatMap method ++ ["\x7d"]
  | .future .. => []

end TypeWords

/-- The words that a type is shown in. -/
def Ty.words (t : Ty) : List String :=
  Ty.fold (fun p => [p.keyword]) (fun x => [x]) TypeWords.ofComposite t

theorem Ty.display_composite (c : Composite Ty) :
    display (.composite c) = TypeText.ofComposite (c.map fun t => (t, t.display)) := by
  rw [display, fold_composite]
  rfl

theorem Ty.words_composite (c : Composite Ty) :
    words (.composite c) = TypeWords.ofComposite (c.map fun t => (t, t.words)) := by
  rw [words, fold_composite]
  rfl

/-- A composite that is no function is shown alike behind the name of a method. -/
theorem Ty.ofMethod_eq {c : Composite Ty} (h : ∀ args results modes, c ≠ .func args results modes) :
    (composite c).display.ofMethod = (composite c).text ∧
      TypeWords.ofMethod (composite c, (composite c).words) = (composite c).words := by
  rw [text, display_composite]
  cases c with
  | func args results modes => exact absurd rfl (h args results modes)
  | opt | service | future => exact ⟨rfl, rfl⟩
  | vec t =>
    cases t with
    | prim p => cases p <;> exact ⟨rfl, rfl⟩
    | named | composite => exact ⟨rfl, rfl⟩
  | record fs | variant fs =>
    refine ⟨?_, rfl⟩
    simp only [TypeText.ofComposite, Composite.map, TypeText.fields]
    split <;> rfl

namespace Idl

def Prints (text : String) (words : List String) : Prop :=
  ∀ (before : Option Char) (rest : List Char) (more : List String),
    before.any Text.isWordChar = false → Lexeme.endsWord rest = true →
    (∀ after, Lexes after rest more) → Lexes before (text.toList ++ rest) (words ++ more)

namespace Prints
variable {text : String} {words : List String}

theorem nil : Prints "" [] := fun _ _ _ _ _ hmore => hmore _

theorem name (h : Word.isName text = true) : Prints text [text] :=
  fun _ _ _ hbefore hrest hmore => .name h hbefore hrest (hmore _)

theorem number (n : Nat) : Prints (toString n) [toString n] := fun _ _ _ _ hrest hmore =>
  .digits (toString_ne_nil n) (isDigit_of_toString n) hrest (hmore _)

/-- A word, a blank and a text. -/
theorem after (word : String) (hword : Word.isName word = true) (h : Prints text words) :
    Prints (word ++ " " ++ text) (word :: words) := by
  intro before rest more hbefore hrest hmore
  simp only [String.toList_append, List.append_assoc, List.cons_append]
  exact .name hword hbefore rfl (.blank (h _ _ _ rfl hrest hmore))

/-- Texts in a row with a mark and a blank between them. -/
theorem joined (mark : String) (hmark : mark ∈ Lexeme.marks) {texts : List String}
    {lists : List (List String)} (h : List.Forall₂ Prints texts lists) :
    Prints (Didl.joined (mark ++ " ") texts) (separated mark lists) := by
  induction h with
  | nil => exact nil
  | @cons t ws ts lists ht hts ih =>
    cases hts with
    | nil =>
      rw [Didl.joined, String.intercalate_singleton]
      exact ht
    | cons =>
      intro before rest more hbefore hrest hmore
      rw [Didl.joined, String.intercalate_cons_cons, ← Didl.joined]
      simp only [separated, String.toList_append, List.append_assoc, List.cons_append]
      refine ht _ _ _ hbefore (Lexeme.endsWord_mark hmark).1 fun after => ?_
      exact .mark mark hmark (.blank (ih _ _ _ rfl hrest hmore))

theorem field {f : Field Ty} (hname : ∀ s, f.name = some s → Word.isName s = true)
    (htype : Prints f.type.text f.type.words) (bareNull : Bool) :
    Prints (TypeText.field bareNull ⟨f.id, f.name, (f.type, f.type.display)⟩)
      (TypeWords.field bareNull ⟨f.id, f.name, (f.type, f.type.words)⟩) := by
  have hlabel : Prints (TypeWords.label f.id f.name) [TypeWords.label f.id f.name] := by
    cases hlabelled : f.name with
    | some s => exact .name (hname s hlabelled)
    | none => exact .number _
  rcases TypeWords.field_cases bareNull f f.type.words f.type.display with
    ⟨_, _, hwords, htext⟩ | ⟨hwords, htext⟩
  · rw [hwords, htext]
    exact hlabel
  · rw [hwords, htext]
    intro before rest more hbefore hrest hmore
    simp only [String.toList_append, List.append_assoc, List.cons_append]
    refine hlabel _ _ _ hbefore rfl fun after => ?_
    exact .mark ":" (by decide) (.blank (htype _ _ _ rfl hrest hmore))

theorem fields {keyword : String} (hkeyword : Word.isName keyword = true) {fs : List (Field Ty)}
    (hnames : ∀ f ∈ fs, ∀ s, f.name = some s → Word.isName s = true)
    (htypes : ∀ f ∈ fs, Prints f.type.text f.type.words) (bareNull : Bool) :
    Prints (TypeText.fields keyword bareNull
        (fs.map fun f => ⟨f.id, f.name, (f.type, f.type.display)⟩)).alone
      (keyword :: TypeWords.fields bareNull
        (fs.map fun f => ⟨f.id, f.name, (f.type, f.type.words)⟩)) := by
  intro before rest more hbefore hrest hmore
  have hclosed : ∀ after, Lexes after ("\x7d".toList ++ rest) ("\x7d" :: more) := fun after =>
    .mark _ (by decide) (hmore _)
  by_cases hempty : fs = []
  · subst hempty
    simp only [TypeText.fields, TypeText.plain, List.map_nil, List.isEmpty_nil, if_true,
      String.toList_append, List.append_assoc]
    exact .name hkeyword hbefore rfl (.blank (.mark "\x7b" (by decide) (hclosed _)))
  · have hjoined := joined ";" (by decide) (List.forall₂_map_left_iff.mpr
      (List.forall₂_map_right_iff.mpr (List.forall₂_same.mpr fun f hf =>
        field (hnames f hf) (htypes f hf) bareNull)))
    rw [TypeText.fields, if_neg (by simpa using hempty)]
    simp only [TypeText.plain, TypeWords.fields, String.toList_append, List.map_map,
      List.append_assoc, List.cons_append]
    exact .name hkeyword hbefore rfl (.blank (.mark "\x7b" (by decide)
      (.blank (hjoined _ _ _ rfl rfl fun _ => .blank (hclosed _)))))

theorem tuple {ts : List Ty} (h : ∀ t ∈ ts, Prints t.text t.words) :
    Prints (TypeText.tuple (ts.map fun t => (t, t.display)))
      (TypeWords.tuple (ts.map fun t => (t, t.words))) := by
  intro before rest more hbefore hrest hmore
  have hjoined := joined "," (by decide) (List.forall₂_map_left_iff.mpr
    (List.forall₂_map_right_iff.mpr (List.forall₂_same.mpr h)))
  simp only [TypeText.tuple, TypeWords.tuple, String.toList_append, List.map_map,
    List.append_assoc, List.cons_append]
  exact .mark "(" (by decide) (hjoined _ _ _ rfl rfl fun _ => .mark ")" (by decide) (hmore _))

/-- Modes stand behind blanks. -/
theorem modes (modes : List Mode) {rest : List Char} {more : List String}
    (hrest : Lexeme.endsWord rest = true) (hmore : ∀ after, Lexes after rest more) :
    Lexeme.endsWord ((String.join (modes.map fun m => " " ++ m.keyword)).toList ++ rest) = true ∧
      ∀ after, Lexes after ((String.join (modes.map fun m => " " ++ m.keyword)).toList ++ rest)
        (modes.map Mode.keyword ++ more) := by
  induction modes with
  | nil => exact ⟨hrest, hmore⟩
  | cons m modes ih =>
    have hname : Word.isName m.keyword = true := by cases m <;> decide
    simp only [List.map_cons, String.join_cons, String.toList_append, List.append_assoc,
      List.cons_append]
    exact ⟨rfl, fun after => .blank (.name hname rfl ih.1 (ih.2 _))⟩

theorem signature {args results : List Ty} (hargs : ∀ t ∈ args, Prints t.text t.words)
    (hresults : ∀ t ∈ results, Prints t.text t.words) (ms : List Mode) :
    Prints (TypeText.signature (args.map fun t => (t, t.display))
        (results.map fun t => (t, t.display)) ms)
      (TypeWords.tuple (args.map fun t => (t, t.words)) ++ "->" ::
        TypeWords.tuple (results.map fun t => (t, t.words)) ++ ms.map Mode.keyword) := by
  intro before rest more hbefore hrest hmore
  obtain ⟨hends, hmodes⟩ := modes ms hrest hmore
  simp only [TypeText.signature, String.toList_append, List.append_assoc, List.cons_append]
  refine tuple hargs _ _ _ hbefore rfl fun after => .blank (.mark "->" (by decide) (.blank ?_))
  exact tuple hresults _ _ _ rfl hends hmodes

/-- Methods stand behind blanks, each with a semicolon. -/
theorem methods {ms : List (Method Ty)} (hms : ∀ m ∈ ms, Word.isName m.name = true ∧
      Prints m.type.display.ofMethod (TypeWords.ofMethod (m.type, m.type.words)))
    {rest : List Char} {more : List String} (hmore : ∀ after, Lexes after rest more) :
    ∀ after, Lexes after
      ((String.join ((ms.map fun m => ⟨m.name, (m.type, m.type.display)⟩).map
        TypeText.method)).toList ++ rest)
      ((ms.map fun m => ⟨m.name, (m.type, m.type.words)⟩).flatMap TypeWords.method ++ more) := by
  induction ms with
  | nil => exact hmore
  | cons m ms ih =>
    obtain ⟨⟨hname, htype⟩, hms⟩ := List.forall_mem_cons.mp hms
    intro after
    simp only [List.map_cons, String.join_cons, List.flatMap_cons, TypeText.method,
      TypeWords.method, String.toList_append, List.append_assoc, List.cons_append]
    refine .blank (.name hname rfl rfl (.mark ":" (by decide) (.blank ?_)))
    exact htype _ _ _ rfl rfl fun _ => .mark ";" (by decide) (ih hms _)

theorem vec {t : Ty} (h : Prints t.text t.words) :
    Prints (Ty.composite (.vec t)).text (Ty.composite (.vec t)).words := by
  have hvec : Prints ("vec" ++ " " ++ t.text) ("vec" :: t.words) := after _ (by decide) h
  rw [Ty.text, Ty.display_composite, Ty.words_composite]
  cases t with
  | prim p =>
    cases p with
    | nat8 => exact name (by decide)
    | _ => exact hvec
  | named | composite => exact hvec

theorem composite {c : Composite Ty} (hc : c.Writable)
    (hmembers : ∀ t ∈ c.members, Prints t.text t.words)
    (hmethods : ∀ t ∈ c.members,
      Prints t.display.ofMethod (TypeWords.ofMethod (t, t.words))) :
    Prints (Ty.composite c).text (Ty.composite c).words := by
  cases c with
  | opt t =>
    have hopt : Prints ("opt" ++ " " ++ t.text) ("opt" :: t.words) :=
      after _ (by decide) (hmembers t (List.mem_singleton_self t))
    rw [Ty.text, Ty.display_composite, Ty.words_composite]
    exact hopt
  | vec t => exact vec (hmembers t (List.mem_singleton_self t))
  | record fs =>
    rw [Ty.text, Ty.display_composite, Ty.words_composite]
    exact fields (by decide) hc (List.forall_mem_map.mp hmembers) false
  | variant fs =>
    rw [Ty.text, Ty.display_composite, Ty.words_composite]
    exact fields (by decide) (fun f hf s hs => (hc f hf s hs).1) (List.forall_mem_map.mp hmembers)
      true
  | func args results modes =>
    obtain ⟨hargs, hresults⟩ := List.forall_mem_append.mp hmembers
    have hfunc := after "func" (by decide) (signature hargs hresults modes)
    rw [Ty.text, Ty.display_composite, Ty.words_composite]
    exact hfunc
  | service ms =>
    intro before rest more hbefore hrest hmore
    rw [Ty.text, Ty.display_composite, Ty.words_composite]
    simp only [TypeText.ofComposite, TypeText.plain, TypeWords.ofComposite, Composite.map,
      String.toList_append, List.append_assoc, List.cons_append]
    have hkeyword : Word.isName "service" = true := by decide
    refine .name hkeyword hbefore rfl (.blank (.mark "\x7b" (by decide) ?_))
    exact methods (fun m hm => ⟨(hc m hm).1, hmethods _ (List.mem_map_of_mem hm)⟩)
      (fun _ => .blank (.mark "\x7d" (by decide) (hmore _))) _
  | future => exact hc.elim

/-- The text of a type is split into its words. -/
theorem of_writable {type : Ty} (h : type.Writable) : Prints type.text type.words ∧
    Prints type.display.ofMethod (TypeWords.ofMethod (type, type.words)) := by
  induction type using Ty.induct with
  | prim p =>
    have hp : Word.isName p.keyword = true := by cases p <;> decide
    exact ⟨name hp, name hp⟩
  | named x =>
    have hx := name (Ty.writable_named.mp h)
    exact ⟨hx, hx⟩
  | composite c ih =>
    obtain ⟨hc, hmembers⟩ := Ty.writable_composite.mp h
    have hcomposite := composite hc (fun t ht => (ih t ht (hmembers t ht)).1)
      fun t ht => (ih t ht (hmembers t ht)).2
    have hother (hnot : ∀ args results modes, c ≠ .func args results modes) :
        Prints (Ty.composite c).display.ofMethod
          (TypeWords.ofMethod (.composite c, (Ty.composite c).words)) := by
      rw [(Ty.ofMethod_eq hnot).1, (Ty.ofMethod_eq hnot).2]
      exact hcomposite
    refine ⟨hcomposite, ?_⟩
    cases c with
    | func args results modes =>
      obtain ⟨hargs, hresults⟩ :=
        List.forall_mem_append.mp fun t ht => (ih t ht (hmembers t ht)).1
      rw [Ty.display_composite, Ty.words_composite]
      exact signature hargs hresults modes
    | _ => exact hother nofun

end Prints
end Idl
end Didl
