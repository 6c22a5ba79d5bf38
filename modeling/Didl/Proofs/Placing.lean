import Didl.Proofs.Lexemes
import Mathlib.Data.List.DropRight

namespace Didl.Idl

namespace Position

/-- The place behind a text: its line is one more than the new lines in the text, its column one more
than the characters behind the last of them. -/
def behind (text : List Char) : Position :=
  ⟨1 + text.count '\n', 1 + (text.rtakeWhile (· != '\n')).length⟩

theorem step_behind (text : List Char) (c : Char) : (behind text).step c = behind (text ++ [c]) := by
  by_cases hc : c = '\n'
  · simp [step, behind, hc, Nat.add_assoc]
  · simp [step, behind, hc, Nat.add_assoc]

/-- Places are counted on from character to character. -/
theorem advance_behind (text more : List Char) :
    (behind text).advance more = behind (text ++ more) := by
  induction more generalizing text with
  | nil => rw [List.append_nil]; rfl
  | cons c more ih =>
    calc (behind text).advance (c :: more) = ((behind text).step c).advance more := rfl
      _ = behind (text ++ [c] ++ more) := by rw [step_behind, ih]
      _ = behind (text ++ c :: more) := by rw [List.append_assoc, List.singleton_append]

end Position

namespace Gap
open Text (isBlank)

theorem append {gap more : List Char} (h : Gap gap) (hmore : Gap more) : Gap (gap ++ more) := by
  induction h with
  | nil => exact hmore
  | blank hc _ ih => exact .blank hc ih
  | block hbody _ ih => simpa using Gap.block hbody ih
  | line hbody _ ih => simpa using Gap.line hbody ih

theorem of_blanks {gap : List Char} (h : ∀ c ∈ gap, isBlank c = true) : Gap gap := by
  induction gap with
  | nil => exact .nil
  | cons c gap ih =>
    obtain ⟨hc, hgap⟩ := List.forall_mem_cons.mp h
    exact .blank hc (ih hgap)

end Gap

/-- A text consists of tokens, each at its place, with white space and comments around them. -/
inductive Covers : List Char → List Token → Prop
  | gap {gap : List Char} : Gap gap → Covers gap []
  | token {text gap : List Char} {tokens : List Token} {word : String} : Covers text tokens →
      IsToken word → Gap gap →
      Covers (text ++ word.toList ++ gap) (tokens ++ [⟨word, Position.behind text⟩])

/-- What may be left behind the last new line: nothing or a line comment. -/
inductive LastLine : List Char → Prop
  | none : LastLine []
  | comment {body : List Char} : '\n' ∉ body → LastLine ('/' :: '/' :: body)

namespace Covers
variable {text : List Char} {tokens : List Token}

theorem append_gap {more : List Char} (h : Covers text tokens) (hmore : Gap more) :
    Covers (text ++ more) tokens := by
  cases h with
  | gap hgap => exact .gap (hgap.append hmore)
  | token htext hword hgap =>
    rw [List.append_assoc]
    exact .token htext hword (hgap.append hmore)

theorem isToken (h : Covers text tokens) : ∀ t ∈ tokens, IsToken t.text := by
  induction h with
  | gap => nofun
  | token _ hword _ ih =>
    intro t ht
    rcases List.mem_append.mp ht with ht | ht
    · exact ih t ht
    · rwa [List.mem_singleton.mp ht]

end Covers

/-- How much of a source the scanner has passed, in front of what is left of it. A line comment that
was passed last is closed by what is left. -/
inductive Passed (rest : List Char) : List Char → List Token → Prop
  | closed {text : List Char} {tokens : List Token} : Covers text tokens → Passed rest text tokens
  | line {text body : List Char} {tokens : List Token} : Covers text tokens → '\n' ∉ body →
      rest.head?.all (· == '\n') = true → Passed rest (text ++ '/' :: '/' :: body) tokens

namespace Passed
open Text (isBlank)
open Lexeme (Kind)
variable {text lexeme rest : List Char} {tokens : List Token}

/-- What the scanner does with a lexeme. -/
theorem step (h : Passed (lexeme ++ rest) text tokens) (hkind : Kind lexeme rest)
    (hlexeme : lexeme ≠ []) : Passed rest (text ++ lexeme)
      (if Lexeme.isSkipped lexeme then tokens
        else tokens ++ [⟨String.ofList lexeme, Position.behind text⟩]) := by
  obtain ⟨c, cs, rfl⟩ := List.exists_cons_of_ne_nil hlexeme
  cases h with
  | closed hcovers =>
    cases hkind with
    | token hword =>
      have hskipped := hword.isSkipped_eq
      rw [String.toList_ofList] at hskipped
      rw [hskipped, if_neg Bool.false_ne_true]
      have hcovers' := Covers.token hcovers hword .nil
      rw [String.toList_ofList, List.append_nil] at hcovers'
      exact .closed hcovers'
    | blanks _ hall =>
      rw [Lexeme.isSkipped_of_isBlank (hall c List.mem_cons_self), if_pos rfl]
      exact .closed (hcovers.append_gap (.of_blanks hall))
    | block hbody => exact .closed (hcovers.append_gap (.block hbody .nil))
    | line hbody hrest => exact .line hcovers hbody hrest
  | line hcovers hbody hnext =>
    obtain rfl : c = '\n' := by simpa using hnext
    cases hkind with
    | token hword =>
      obtain ⟨c, cs, heq, hblank, _⟩ := hword.exists_cons
      rw [String.toList_ofList] at heq
      cases heq
      cases hblank
    | blanks _ hall =>
      rw [Lexeme.isSkipped_of_isBlank (hall _ List.mem_cons_self), if_pos rfl, List.append_assoc]
      exact .closed (hcovers.append_gap
        (.line hbody (.of_blanks fun c hc => hall c (List.mem_cons_of_mem _ hc))))

theorem last (h : Passed [] text tokens) :
    ∃ front tail, text = front ++ tail ∧ Covers front tokens ∧ LastLine tail := by
  cases h with
  | closed hcovers => exact ⟨text, [], (List.append_nil _).symm, hcovers, .none⟩
  | line hcovers hbody => exact ⟨_, _, rfl, hcovers, .comment hbody⟩

/-- Where no lexeme starts, no comment is open. -/
theorem covers {before : Option Char} (h : Passed rest text tokens) (hrest : rest ≠ [])
    (hstray : Lexeme.length before rest = 0) : Covers text tokens := by
  cases h with
  | closed hcovers => exact hcovers
  | line _ _ hnext =>
    obtain ⟨c, cs, rfl⟩ := List.exists_cons_of_ne_nil hrest
    obtain rfl : c = '\n' := by simpa using hnext
    rw [Lexeme.length_blank (by decide)] at hstray
    cases hstray

end Passed

namespace Token
open Lexeme (stray)
variable {before : Option Char} {position : Position} {done : List Token} {text cs : List Char}

/-- What the scanner goes on with behind a lexeme. -/
theorem passed_lexeme {c : Char} (hpassed : Passed (c :: cs) text done.reverse)
    (hposition : position = .behind text) {count : Nat} (hcount : count ≠ 0)
    (hlength : Lexeme.length before (c :: cs) = count) :
    let lexeme := (c :: cs).take count
    Passed ((c :: cs).drop count) (text ++ lexeme)
        (if Lexeme.isSkipped lexeme then done
          else ⟨String.ofList lexeme, position⟩ :: done).reverse ∧
      position.advance lexeme = .behind (text ++ lexeme) ∧
      lexeme.getLast? = (text ++ lexeme).getLast? := by
  obtain ⟨lexeme, rest, hcs, hlexeme, hkind⟩ := Lexeme.starts_length (hlength ▸ hcount)
  rw [hlength] at hlexeme
  rw [hcs] at hpassed ⊢
  rw [hlexeme, List.take_left, List.drop_left]
  have hne : lexeme ≠ [] := by
    rintro rfl
    exact hcount hlexeme
  refine ⟨?_, by rw [hposition, Position.advance_behind], ?_⟩
  · rw [apply_ite List.reverse, List.reverse_cons, hposition]
    exact hpassed.step hkind hne
  · rw [List.getLast?_append, List.getLast?_eq_getLast_of_ne_nil hne, Option.some_or]

/-- A source that is split is passed up to its end. -/
theorem scan_ok {tokens : List Token} (hpassed : Passed cs text done.reverse)
    (hposition : position = .behind text) (h : scan before position done cs = .ok tokens) :
    ∃ words, tokens = words ++ [⟨"", .behind (text ++ cs)⟩] ∧ Passed [] (text ++ cs) words := by
  fun_induction scan before position done cs generalizing text with
  | case1 before position done =>
    cases h
    rw [List.append_nil]
    exact ⟨done.reverse, by rw [List.reverse_cons, hposition], hpassed⟩
  | case2 => cases h
  | case3 before position done c rest count hcount lexeme done' =>
    rename_i ih
    obtain ⟨hpassed', hposition', _⟩ := passed_lexeme hpassed hposition hcount rfl
    obtain ⟨words, hwords, hlast⟩ := ih hpassed' hposition' h
    rw [List.append_assoc, List.take_append_drop] at hwords hlast
    exact ⟨words, hwords, hlast⟩

/-- One that is not is passed up to text that starts no lexeme. -/
theorem scan_error {failure : Failure} (hpassed : Passed cs text done.reverse)
    (hposition : position = .behind text) (hbefore : before = text.getLast?)
    (h : scan before position done cs = .error failure) :
    ∃ front rest words, text ++ cs = front ++ rest ∧ Covers front words ∧ rest ≠ [] ∧
      Lexeme.length front.getLast? rest = 0 ∧
      failure = .parse (.stray (String.ofList (stray front.getLast? rest))) (.behind front) := by
  fun_induction scan before position done cs generalizing text with
  | case1 => cases h
  | case2 before position done c rest count =>
    rename_i hcount
    cases h
    have hcovers := hpassed.covers (List.cons_ne_nil c rest) hcount
    exact ⟨text, c :: rest, done.reverse, rfl, hcovers, List.cons_ne_nil c rest, hbefore ▸ hcount,
      by rw [hposition, hbefore]⟩
  | case3 before position done c rest count hcount lexeme done' =>
    rename_i ih
    obtain ⟨hpassed', hposition', hbefore'⟩ := passed_lexeme hpassed hposition hcount rfl
    obtain ⟨front, more, words, htext, hfailed⟩ := ih hpassed' hposition' hbefore' h
    rw [List.append_assoc, List.take_append_drop] at htext
    exact ⟨front, more, words, htext, hfailed⟩

theorem passed_start (source : String) :
    Passed source.toList [] ([] : List Token).reverse := .closed (.gap .nil)

theorem passed_of_split {source : String} {tokens : List Token} (h : split source = .ok tokens) :
    ∃ words, tokens = words ++ [⟨"", .behind source.toList⟩] ∧ Passed [] source.toList words :=
  scan_ok (passed_start source) rfl h

/-- Nothing of a source is lost. It consists of its tokens with white space and comments around them,
each token stands where its place says, and the last one, which alone is empty, stands at the end of
the source. Where a source is not split, this holds of all in front of the place that is told. -/
theorem split_covers (source : String) :
    (∃ text tail words, source.toList = text ++ tail ∧ Covers text words ∧ LastLine tail ∧
      (∀ t ∈ words, t.text ≠ "") ∧
      split source = .ok (words ++ [⟨"", .behind source.toList⟩])) ∨
    ∃ text rest words, source.toList = text ++ rest ∧ Covers text words ∧ rest ≠ [] ∧
      Lexeme.length text.getLast? rest = 0 ∧
      split source =
        .error (.parse (.stray (String.ofList (stray text.getLast? rest))) (.behind text)) := by
  cases hsplit : split source with
  | ok tokens =>
    obtain ⟨words, rfl, hpassed⟩ := passed_of_split hsplit
    obtain ⟨text, tail, htext, hcovers, htail⟩ := hpassed.last
    exact .inl ⟨text, tail, words, htext, hcovers, htail,
      fun t ht => (hcovers.isToken t ht).ne_empty, rfl⟩
  | error failure =>
    obtain ⟨text, rest, words, htext, hcovers, hrest, hstray, rfl⟩ :=
      scan_error (passed_start source) rfl rfl hsplit
    exact .inr ⟨text, rest, words, htext, hcovers, hrest, hstray, rfl⟩

end Token
end Didl.Idl
