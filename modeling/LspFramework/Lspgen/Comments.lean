import LspFramework.Lib.Replace
import LspFramework.Lspgen.Header

/-!
# lspgen: documentation in comments

`documentationComment` writes the documentation of a type, a value or a message as a C comment, with the
delimiters of comments in it broken up.

Main result: `comment_closed` (the comment ends where it was written to end).
-/

namespace Lsp.Metamodel

open Chars Replace

/-- `splitStringView`; an empty part behind the last separator is left out. -/
def splitFrom (separator : Bytes) (skipEmpty : Bool) : Nat → Bytes → List Bytes
  | 0, str => if str = [] then [] else [str]
  | fuel + 1, str =>
    match find separator str with
    | none => if str = [] then [] else [str]
    | some idx =>
      let parts := splitFrom separator skipEmpty fuel (str.drop (idx + separator.length))
      if str.take idx = [] && skipEmpty then parts else str.take idx :: parts

def splitStringView (str separator : Bytes) (skipEmpty : Bool) : List Bytes :=
  splitFrom separator skipEmpty str.length str

def replaceString (str pattern replacement : Bytes) : Bytes := replace pattern replacement str

def documentationLine (line : Bytes) : Bytes :=
  replaceString (replaceString line (bytes "/*") (bytes "/_*")) (bytes "*/") (bytes "*_/")

section Comment

variable (indentLevel : Nat)

def indent : Bytes := List.replicate indentLevel 9

def commentLine (text : Bytes) : Bytes := indent indentLevel ++ bytes " * " ++ text ++ bytes "\n"

def titleLine (title : Bytes) : Bytes := if title = [] then [] else commentLine indentLevel title

/-- The lines of the documentation, apart from the title. -/
def documentationLines (title : Bytes) (lines : List Bytes) : Bytes :=
  if lines = [] then []
  else (if title = [] then [] else indent indentLevel ++ bytes " *\n") ++
    lines.flatMap fun line => commentLine indentLevel (documentationLine line)

def documentationComment (title documentation : Bytes) : Bytes :=
  let lines := splitStringView documentation (bytes "\n") false
  if lines = [] ∧ title = [] then []
  else indent indentLevel ++ bytes "/*\n" ++ titleLine indentLevel title ++ documentationLines indentLevel title lines ++
    indent indentLevel ++ bytes " */\n"

end Comment

/-! ## Delimiters -/

/-- A text without delimiters of comments. -/
structure Inert (text : Bytes) : Prop where
  opening : NoPair (chr '/') (chr '*') text
  closing : NoPair (chr '*') (chr '/') text

/-- The bytes that are in no delimiter. -/
def Plain (c : UInt8) : Prop := c ≠ chr '*' ∧ c ≠ chr '/'

theorem inert_append {s s' : Bytes} {c : UInt8} (hc : Plain c) (h : Inert s) (h' : Inert s') :
    Inert (s ++ c :: s') :=
  ⟨noPair_append_cons hc.2 hc.1 h.opening h'.opening, noPair_append_cons hc.1 hc.2 h.closing h'.closing⟩

theorem inert_nil : Inert [] := ⟨.nil, .nil⟩

theorem inert_of_plain {text : Bytes} (h : ∀ c ∈ text, Plain c) : Inert text := by
  induction text with
  | nil => exact inert_nil
  | cons c text ih =>
    obtain ⟨hc, htext⟩ := List.forall_mem_cons.mp h
    exact inert_append hc inert_nil (ih htext)

theorem isIdentifierChar_of_mem {str : Bytes} {c : UInt8} (hc : c ∈ upperCaseIdentifier str) :
    isIdentifierChar c = true := by
  unfold upperCaseIdentifier at hc
  obtain ⟨d, -, rfl⟩ := List.mem_map.mp hc
  split
  · next h => exact h
  · decide

/-- A title that `upperCaseIdentifier` makes is without delimiters. -/
theorem inert_upperCaseIdentifier (str : Bytes) : Inert (upperCaseIdentifier str) := by
  refine inert_of_plain fun c hc => ?_
  have hall : ∀ c : UInt8, isIdentifierChar c = true → c ≠ chr '*' ∧ c ≠ chr '/' := forall_byte (by decide +kernel)
  exact hall c (isIdentifierChar_of_mem hc)

/-- The second replacement does not bring back what the first one broke up. -/
theorem inert_documentationLine (line : Bytes) : Inert (documentationLine line) where
  opening := noPair_replace_of_noPair (a := chr '*') (b := chr '/') (c := chr '_') (by decide) (by decide)
    (noPair_replace (a := chr '/') (b := chr '*') (c := chr '_') (by decide) (by decide) (by decide) line)
  closing := noPair_replace (a := chr '*') (b := chr '/') (c := chr '_') (by decide) (by decide) (by decide) _

section Lines

variable {indentLevel : Nat} {text rest : Bytes}

theorem inert_indent (indentLevel : Nat) : Inert (indent indentLevel) := by
  refine inert_of_plain fun c hc => ?_
  rw [List.eq_of_mem_replicate hc]
  exact ⟨by decide, by decide⟩

theorem plain_space : Plain (chr ' ') := ⟨by decide, by decide⟩

theorem plain_newline : Plain (chr '\n') := ⟨by decide, by decide⟩

theorem inert_star : Inert [chr '*'] := ⟨.singleton _, .singleton _⟩

/-- A line of the comment, in front of the others. -/
theorem inert_commentLine (htext : Inert text) (hrest : Inert rest) : Inert (commentLine indentLevel text ++ rest) := by
  have h := inert_append plain_space (inert_indent indentLevel)
    (inert_append plain_space inert_star (inert_append plain_newline htext hrest))
  rw [commentLine, List.append_assoc, List.append_assoc, List.append_assoc]
  exact h

theorem inert_titleLine {title : Bytes} (htitle : Inert title) (hrest : Inert rest) :
    Inert (titleLine indentLevel title ++ rest) := by
  unfold titleLine
  split
  · exact hrest
  · exact inert_commentLine htitle hrest

theorem inert_documentationLines (title : Bytes) (lines : List Bytes) (hrest : Inert rest) :
    Inert (documentationLines indentLevel title lines ++ rest) := by
  have hlines : Inert ((lines.flatMap fun line => commentLine indentLevel (documentationLine line)) ++ rest) := by
    induction lines with
    | nil => exact hrest
    | cons line lines ih =>
      rw [List.flatMap_cons, List.append_assoc]
      exact inert_commentLine (inert_documentationLine line) ih
  unfold documentationLines
  split
  · exact hrest
  · rw [List.append_assoc]
    split
    · exact hlines
    · rw [List.append_assoc]
      exact inert_append plain_space (inert_indent indentLevel) (inert_append plain_newline inert_star hlines)

end Lines

/-- **The comment ends where it was written to end**, and no other comment starts in it. -/
theorem comment_closed (indentLevel : Nat) (title documentation : Bytes) (htitle : Inert title) :
    documentationComment indentLevel title documentation = [] ∨
      ∃ body, documentationComment indentLevel title documentation =
          indent indentLevel ++ bytes "/*" ++ body ++ bytes "*/\n" ∧
        find (bytes "*/") (body ++ bytes "*/\n") = some body.length ∧ find (bytes "/*") body = none := by
  let lines := splitStringView documentation (bytes "\n") false
  by_cases hempty : lines = [] ∧ title = []
  · exact .inl (if_pos hempty)
  · let text := chr '\n' :: (titleLine indentLevel title ++
      (documentationLines indentLevel title lines ++ indent indentLevel))
    have htext : Inert text := inert_append (s := []) plain_newline inert_nil
      (inert_titleLine htitle (inert_documentationLines title lines (inert_indent indentLevel)))
    refine .inr ⟨text ++ [chr ' '], ?_, ?_, ?_⟩
    · refine (if_neg hempty).trans ?_
      simp only [List.append_assoc, List.cons_append, text]
      rfl
    · refine find_pair_append (a := chr '*') (b := chr '/') (bytes "\n") ?_
      rw [List.append_assoc]
      exact noPair_append_cons plain_space.1 plain_space.2 htext.closing (.singleton _)
    · exact find_pair_eq_none_iff.mpr (inert_append plain_space htext inert_nil).opening

/-- A documentation that would end its comment. -/
theorem comment_closed_progress :
    documentationComment 1 (upperCaseIdentifier (bytes "$/progress")) (bytes "a */ b\n/*/") = [] ∨
      ∃ body, documentationComment 1 (upperCaseIdentifier (bytes "$/progress")) (bytes "a */ b\n/*/") =
          indent 1 ++ bytes "/*" ++ body ++ bytes "*/\n" ∧
        find (bytes "*/") (body ++ bytes "*/\n") = some body.length ∧ find (bytes "/*") body = none :=
  comment_closed 1 _ _ (inert_upperCaseIdentifier _)

end Lsp.Metamodel
