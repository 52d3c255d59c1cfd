import LspFramework.Lib.Rfc8259
import LspFramework.Json.Literal

/-!
# The JSON printer

`stringifyImplementation` appends the text of a value to a string; here it is that text, by
recursion over the value.  The formatted layout indents by the nesting depth, with at most 32
tabs.  The members of an object are printed in the order its map is iterated in.
-/

namespace Lsp.Json

open Chars

/-! ## Layout -/

def Tabs : Bytes := List.replicate 32 (chr '\t')

def getIndent (indentLevel : Nat) (format : Bool) : Bytes :=
  if format then Tabs.take (min indentLevel Tabs.length) else []

def keySep (format : Bool) : Bytes := if format then bytes ": " else bytes ":"

def valueSep (format : Bool) : Bytes := if format then bytes ",\n" else bytes ","

def listStart (format : Bool) : Bytes := if format then bytes "\n" else []

def listEnd (format : Bool) : Bytes := if format then bytes "\n" else []

section Layout

variable (indentLevel : Nat) (format : Bool)

theorem ws_getIndent : Rfc8259.Ws (getIndent indentLevel format) := by
  unfold getIndent
  split
  · intro c hc
    rw [List.eq_of_mem_replicate (List.mem_of_mem_take hc)]
    decide
  · exact .nil

theorem ws_listStart : Rfc8259.Ws (listStart format ++ getIndent indentLevel format) := by
  have hstart : Rfc8259.Ws (listStart format) := by cases format <;> decide
  exact hstart.append (ws_getIndent indentLevel format)

theorem ws_listEnd : Rfc8259.Ws (listEnd format ++ getIndent indentLevel format) := by
  have hend : Rfc8259.Ws (listEnd format) := by cases format <;> decide
  exact hend.append (ws_getIndent indentLevel format)

theorem valueSep_eq : ∃ w, Rfc8259.Ws w ∧ valueSep format = chr ',' :: w := by
  cases format with
  | false => exact ⟨[], .nil, rfl⟩
  | true => exact ⟨bytes "\n", by decide, rfl⟩

theorem keySep_eq : ∃ w, Rfc8259.Ws w ∧ keySep format = chr ':' :: w := by
  cases format with
  | false => exact ⟨[], .nil, rfl⟩
  | true => exact ⟨bytes " ", by decide, rfl⟩

end Layout

/-- The loop that drops trailing zeros, from index `i` down; a string has a NUL behind its
last byte. -/
def dropZeros : Nat → Bytes → Bytes
  | 0, numberStr => numberStr
  | i + 1, numberStr =>
    if 2 < i + 1 then
      if numberStr.getD (i + 1) 0 ≠ chr '0' ∨ numberStr.getD i 0 = chr '.' then numberStr
      else dropZeros i numberStr.dropLast
    else numberStr

def decimalText (d : Decimal) : Bytes := dropZeros d.text.length d.text

/-! ## Algorithm -/

mutual

/-- The text of a value that starts at the given indentation. -/
def stringifyImplementation (indentLevel : Nat) (format : Bool) : Value → Bytes
  | .null => bytes "null"
  | .boolean b => if b then bytes "true" else bytes "false"
  | .integer i => intText i.toInt
  | .decimal d => decimalText d
  | .string s => toStringLiteral s
  | .object [] => [chr '{', chr '}']
  | .object ((key, v) :: ms) =>
    chr '{' :: listStart format ++ getIndent (indentLevel + 1) format ++ toStringLiteral key ++
      keySep format ++ stringifyImplementation (indentLevel + 1) format v ++
      stringifyMembers (indentLevel + 1) format ms ++ listEnd format ++ getIndent indentLevel format ++
      [chr '}']
  | .array [] => [chr '[', chr ']']
  | .array (v :: vs) =>
    chr '[' :: listStart format ++ getIndent (indentLevel + 1) format ++
      stringifyImplementation (indentLevel + 1) format v ++
      stringifyElements (indentLevel + 1) format vs ++ listEnd format ++ getIndent indentLevel format ++
      [chr ']']

/-- The loop over the members behind the first. -/
def stringifyMembers (indentLevel : Nat) (format : Bool) : List (Bytes × Value) → Bytes
  | [] => []
  | (key, v) :: ms =>
    valueSep format ++ getIndent indentLevel format ++ toStringLiteral key ++ keySep format ++
      stringifyImplementation indentLevel format v ++ stringifyMembers indentLevel format ms

/-- The loop over the elements behind the first. -/
def stringifyElements (indentLevel : Nat) (format : Bool) : List Value → Bytes
  | [] => []
  | v :: vs =>
    valueSep format ++ getIndent indentLevel format ++ stringifyImplementation indentLevel format v ++
      stringifyElements indentLevel format vs

end

/-- `json::stringify`. -/
def stringify (json : Value) (format : Bool) : Bytes := stringifyImplementation 0 format json

end Lsp.Json
