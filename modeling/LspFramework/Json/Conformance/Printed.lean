import LspFramework.Json.Stringify

/-!
# What is printed is a text of RFC 8259

`stringify` writes a JSON text that denotes the value, read by the rules of the RFC alone:

    ∃ j, Rfc8259.Text (stringify v format) j ∧ Denotes j v              (stringify_rfc)

for a value without a `Decimal` whose strings and keys are UTF-8, in both layouts.
-/

namespace Lsp.Json

open Chars Unicode
open Rfc8259 (ValueText ElementsText MembersText StringText CharText CharsText Number)

/-! ## What a text denotes -/

/-- The code units are those of the characters the bytes encode. -/
def DenotesString (us : List Nat) (s : Bytes) : Prop :=
  ∃ cs : List Char, us = cs.flatMap (fun c => utf16 c.toNat) ∧ s = cs.flatMap String.utf8EncodeChar

mutual

inductive Denotes : Rfc8259.Json → Value → Prop
  | null : Denotes .null .null
  | boolean (b : Bool) : Denotes (.boolean b) (.boolean b)
  | integer {n : Number} {i : Integer} : n.integer = i.toInt * n.den → Denotes (.number n) (.integer i)
  | string {us : List Nat} {s : Bytes} : DenotesString us s → Denotes (.string us) (.string s)
  | array {js : List Rfc8259.Json} {vs : Array} : DenotesElements js vs → Denotes (.array js) (.array vs)
  | object {ms : List (List Nat × Rfc8259.Json)} {ns : Object} : DenotesMembers ms ns →
      Denotes (.object ms) (.object ns)

inductive DenotesElements : List Rfc8259.Json → Array → Prop
  | nil : DenotesElements [] []
  | cons {j : Rfc8259.Json} {v : Value} {js : List Rfc8259.Json} {vs : Array} : Denotes j v →
      DenotesElements js vs → DenotesElements (j :: js) (v :: vs)

inductive DenotesMembers : List (List Nat × Rfc8259.Json) → Object → Prop
  | nil : DenotesMembers [] []
  | cons {us : List Nat} {key : Bytes} {j : Rfc8259.Json} {v : Value}
      {ms : List (List Nat × Rfc8259.Json)} {ns : Object} : DenotesString us key → Denotes j v →
      DenotesMembers ms ns → DenotesMembers ((us, j) :: ms) ((key, v) :: ns)

end

def Value.utf8Strings : Value → Prop
  | .string s => ValidUtf8 s
  | .object ms => ∀ m ∈ ms, ValidUtf8 m.1
  | _ => True

/-- The strings and keys of the value are UTF-8. -/
def Value.Utf8 : Value → Prop := Value.Everywhere Value.utf8Strings

/-! ## Strings -/

theorem charText_control {n : Nat} (h : n < 0x20) :
    CharText (bytes "\\u00" ++ [hexLookup (UInt8.ofNat n >>> 4).toNat, hexLookup (UInt8.ofNat n &&& 0xF).toNat])
      [n] := by
  have hdigits : ∀ n, n < 0x20 →
      let ds := bytes "00" ++ [hexLookup (UInt8.ofNat n >>> 4).toNat, hexLookup (UInt8.ofNat n &&& 0xF).toNat]
      (∀ d ∈ ds, isDigitOf 16 d = true) ∧ valueOf 16 ds = n := by
    decide +kernel
  obtain ⟨hhex, hval⟩ := hdigits n h
  have := @CharText.unicode (bytes "00" ++ [hexLookup (UInt8.ofNat n >>> 4).toNat,
    hexLookup (UInt8.ofNat n &&& 0xF).toNat]) rfl hhex
  rwa [hval] at this

theorem charText_escape {c : Char} (hc : c.toNat < 0x80) : CharText (escape (UInt8.ofNat c.toNat)) [c.toNat] := by
  have hn : ∀ k, k < 0x80 → UInt8.ofNat c.toNat = UInt8.ofNat k → c.toNat = k := fun k hk h =>
    (ofNat_eq_iff (by omega) (by omega)).mp h
  unfold escape
  split
  · next h => rw [hn 0x08 (by decide) h]; exact .escape (by decide)
  · next h => rw [hn 0x09 (by decide) h]; exact .escape (by decide)
  · next h => rw [hn 0x0A (by decide) h]; exact .escape (by decide)
  · next h => rw [hn 0x0C (by decide) h]; exact .escape (by decide)
  · next h => rw [hn 0x0D (by decide) h]; exact .escape (by decide)
  · next h => rw [hn 0x22 (by decide) h]; exact .escape (by decide)
  · next h => rw [hn 0x5C (by decide) h]; exact .escape (by decide)
  · next hq hbs =>
    have hlt : UInt8.ofNat c.toNat < 0x20 ↔ c.toNat < 0x20 := by
      rw [UInt8.lt_iff_toNat_lt, UInt8.toNat_ofNat', Nat.mod_eq_of_lt (by omega)]
      rfl
    split
    · next h => exact charText_control (hlt.mp h)
    · next h =>
      have hraw := CharText.unescaped (c := c) (Nat.le_of_not_lt fun h' => h (hlt.mpr h'))
        (by rintro rfl; exact hq rfl) (by rintro rfl; exact hbs rfl)
      rwa [utf8_char, utf8_ascii hc, utf16, if_pos (by omega)] at hraw

theorem escape_high : ∀ b : UInt8, 0x80 ≤ b → escape b = [b] :=
  forall_byte (by decide +kernel)

/-- **An encoded character is printed as one character.** -/
theorem charText_utf8 (c : Char) : CharText ((String.utf8EncodeChar c).flatMap escape) (utf16 c.toNat) := by
  by_cases hc : c.toNat < 0x80
  · rw [utf8_char, utf8_ascii hc, List.flatMap_singleton, utf16, if_pos (by omega)]
    exact charText_escape hc
  · have hhigh : ∀ b ∈ utf8 c.toNat, escape b = [b] := fun b hb =>
      escape_high b (utf8_high (by omega) (char_lt c) hb)
    have hid : (utf8 c.toNat).flatMap escape = utf8 c.toNat := by
      rw [List.flatMap_congr hhigh, List.flatMap_singleton']
    have hraw := CharText.unescaped (c := c) (by omega) (by rintro rfl; exact hc (by decide))
      (by rintro rfl; exact hc (by decide))
    rwa [utf8_char, hid, ← utf8_char]

theorem stringText_toStringLiteral {s : Bytes} (h : ValidUtf8 s) :
    ∃ us, StringText (toStringLiteral s) us ∧ DenotesString us s := by
  obtain ⟨cs, rfl⟩ := h
  refine ⟨cs.flatMap (fun c => utf16 c.toNat), ⟨(cs.flatMap String.utf8EncodeChar).flatMap escape, ?_, rfl⟩, cs,
    rfl, rfl⟩
  induction cs with
  | nil => exact .nil
  | cons c cs ih =>
    rw [List.flatMap_cons, List.flatMap_append, List.flatMap_cons]
    exact .cons (charText_utf8 c) ih

/-! ## Integers -/

/-- The number an integer is printed as. -/
def numberOf (i : Int) : Number where
  minus := decide (i < 0)
  int := natText i.natAbs
  frac := none
  exp := none
  int_ok := ⟨⟨natText_ne_nil _, fun _ hc => isdigit_of_mem_natText hc⟩, natText_zero⟩
  frac_ok := Rfc8259.digits_of_none

theorem numberOf_text (i : Int) : (numberOf i).text = intText i := by
  unfold Number.text numberOf intText
  by_cases hi : i < 0 <;> simp [hi, Number.fracText, Number.expText]

theorem numberOf_integer (i : Int) : (numberOf i).integer = i ∧ (numberOf i).den = 1 := by
  have hnum : (numberOf i).num = i.natAbs := by
    simp [Number.num, Number.scale, numberOf, valueOf_natText]
  refine ⟨?_, rfl⟩
  unfold Number.integer
  rw [hnum, show (numberOf i).minus = decide (i < 0) from rfl]
  by_cases hi : i < 0
  · rw [if_pos (decide_eq_true hi)]
    omega
  · rw [if_neg (by rw [decide_eq_false hi]; exact Bool.false_ne_true)]
    omega

/-! ## Values -/

/-- The text of the value at any depth. -/
def PrintsText (format : Bool) (v : Value) : Prop :=
  ∀ indentLevel, ∃ j, ValueText (stringifyImplementation indentLevel format v) j ∧ Denotes j v

section Containers

variable {format : Bool} {indentLevel : Nat} {close : Bytes} (hclose : Rfc8259.Ws close)

include hclose

theorem elementsText_stringify {w : Bytes} (hw : Rfc8259.Ws w) {v : Value} {vs : Array}
    (h : ∀ u ∈ v :: vs, PrintsText format u) :
    ∃ js, ElementsText (w ++ stringifyImplementation indentLevel format v ++
        (stringifyElements indentLevel format vs ++ close)) js ∧ DenotesElements js (v :: vs) := by
  obtain ⟨j, hj, hv⟩ := h v List.mem_cons_self indentLevel
  induction vs generalizing v w j with
  | nil => exact ⟨[j], .last hw hj hclose, .cons hv .nil⟩
  | cons u us ih =>
    obtain ⟨sep, hsep, heq⟩ := valueSep_eq format
    obtain ⟨k, hk, hu⟩ := h u (by simp) indentLevel
    obtain ⟨js, hjs, hus⟩ := ih (hsep.append (ws_getIndent indentLevel format))
      (fun x hx => h x (List.mem_cons_of_mem _ hx)) k hk hu
    have := ElementsText.more hw hj .nil hjs
    refine ⟨j :: js, ?_, .cons hv hus⟩
    simpa only [stringifyElements, heq, List.append_assoc, List.cons_append, List.nil_append] using this

theorem membersText_stringify {w : Bytes} (hw : Rfc8259.Ws w) {key : Bytes} {v : Value} {ms : Object}
    (h : ∀ m ∈ (key, v) :: ms, ValidUtf8 m.1 ∧ PrintsText format m.2) :
    ∃ js, MembersText (w ++ toStringLiteral key ++ keySep format ++
        stringifyImplementation indentLevel format v ++ (stringifyMembers indentLevel format ms ++ close)) js ∧
      DenotesMembers js ((key, v) :: ms) := by
  obtain ⟨colon, hcolon, hkeySep⟩ := keySep_eq format
  induction ms generalizing key v w with
  | nil =>
    obtain ⟨hkey, hv⟩ := h (key, v) List.mem_cons_self
    obtain ⟨us, hus, hden⟩ := stringText_toStringLiteral hkey
    obtain ⟨j, hj, hv⟩ := hv indentLevel
    have := MembersText.last hw hus .nil hcolon hj hclose
    refine ⟨[(us, j)], ?_, .cons hden hv .nil⟩
    simpa only [stringifyMembers, hkeySep, List.append_assoc, List.cons_append, List.nil_append,
      List.append_nil] using this
  | cons m ms ih =>
    obtain ⟨hkey, hv⟩ := h (key, v) List.mem_cons_self
    obtain ⟨us, hus, hden⟩ := stringText_toStringLiteral hkey
    obtain ⟨j, hj, hv⟩ := hv indentLevel
    obtain ⟨sep, hsep, heq⟩ := valueSep_eq format
    obtain ⟨js, hjs, hms⟩ := ih (hsep.append (ws_getIndent indentLevel format))
      (fun x hx => h x (List.mem_cons_of_mem _ hx))
    have := MembersText.more hw hus .nil hcolon hj .nil hjs
    refine ⟨(us, j) :: js, ?_, .cons hden hv hms⟩
    simpa only [stringifyMembers, hkeySep, heq, List.append_assoc, List.cons_append, List.nil_append,
      List.append_nil] using this

end Containers

theorem printsText {v : Value} (hd : v.NoDecimal) (hs : v.Utf8) (format : Bool) : PrintsText format v := by
  induction v with
  | null => exact fun _ => ⟨_, .null, .null⟩
  | boolean b =>
    cases b with
    | false => exact fun _ => ⟨_, .false_, .boolean false⟩
    | true => exact fun _ => ⟨_, .true_, .boolean true⟩
  | integer i =>
    intro _
    have hden := numberOf_integer i.toInt
    refine ⟨.number (numberOf i.toInt), ?_, .integer ?_⟩
    · rw [stringifyImplementation, ← numberOf_text]
      exact .number _
    · rw [hden.1, hden.2]
      simp
  | decimal d => simp [Value.NoDecimal, Value.Everywhere, Value.isDecimal] at hd
  | string s =>
    intro _
    obtain ⟨us, hus, hden⟩ := stringText_toStringLiteral hs
    exact ⟨_, .string hus, .string hden⟩
  | array vs ih =>
    rw [Value.NoDecimal, Value.everywhere_array] at hd
    rw [Value.Utf8, Value.everywhere_array] at hs
    have hv : ∀ v ∈ vs, PrintsText format v := fun v hv => ih v hv (hd.2 v hv) (hs.2 v hv)
    intro indentLevel
    cases vs with
    | nil => exact ⟨_, .emptyArray .nil, .array .nil⟩
    | cons v vs =>
      obtain ⟨js, hjs, hden⟩ := @elementsText_stringify format (indentLevel + 1) _ (ws_listEnd indentLevel format) _
        (ws_listStart (indentLevel + 1) format) _ _ hv
      have := ValueText.array hjs
      refine ⟨_, ?_, .array hden⟩
      simpa only [stringifyImplementation, List.append_assoc, List.cons_append] using this
  | object ms ih =>
    rw [Value.NoDecimal, Value.everywhere_object] at hd
    rw [Value.Utf8, Value.everywhere_object] at hs
    have hm : ∀ m ∈ ms, ValidUtf8 m.1 ∧ PrintsText format m.2 := fun m hm =>
      ⟨hs.1 m hm, ih m hm (hd.2 m hm) (hs.2 m hm)⟩
    intro indentLevel
    cases ms with
    | nil => exact ⟨_, .emptyObject .nil, .object .nil⟩
    | cons m ms =>
      obtain ⟨key, v⟩ := m
      obtain ⟨js, hjs, hden⟩ := @membersText_stringify format (indentLevel + 1) _ (ws_listEnd indentLevel format) _
        (ws_listStart (indentLevel + 1) format) _ _ _ hm
      have := ValueText.object hjs
      refine ⟨_, ?_, .object hden⟩
      simpa only [stringifyImplementation, List.append_assoc, List.cons_append] using this

/-- **What is printed is a text of the RFC that denotes the value**, in both layouts. -/
theorem stringify_rfc {v : Value} (hd : v.NoDecimal) (hs : v.Utf8) (format : Bool) :
    ∃ j, Rfc8259.Text (stringify v format) j ∧ Denotes j v := by
  obtain ⟨j, hj, hden⟩ := printsText hd hs format 0
  exact ⟨j, ⟨[], _, [], .nil, hj, .nil, by simp [stringify]⟩, hden⟩

theorem stringify_rfc_object :
    ∃ j, Rfc8259.Text (stringify (.object [([34], .array [.string [0xC3, 0xA9, 10], .integer (-7)])]) true) j ∧
      Denotes j (.object [([34], .array [.string [0xC3, 0xA9, 10], .integer (-7)])]) := by
  apply stringify_rfc
  · simp [Value.NoDecimal, Value.Everywhere, Value.EverywhereMembers, Value.EverywhereElems, Value.isDecimal]
  · simp only [Value.Utf8, Value.Everywhere, Value.EverywhereMembers, Value.EverywhereElems, Value.utf8Strings,
      List.forall_mem_cons, List.not_mem_nil, false_implies, implies_true, and_true, true_and]
    exact ⟨⟨['"'], rfl⟩, ⟨['é', '\n'], rfl⟩⟩

end Lsp.Json
