import LspFramework.Json.Soundness
import LspFramework.Json.Stringify

/-!
# What is printed is parsed back

The text of a value without a `Decimal` is in the grammar and derives that value
(`derives_stringify`, by induction on the value), so the parser reads it back:

    Reordered v w → parse (stringify w format) = .ok w ∧ v.eq w       (parse_stringify)

where `v` is the value handed to `stringify` and `w` is `v` in the order the printer meets the
members of its objects.
-/

namespace Lsp.Json

open Chars
open Value (Reordered WellFormed NoDecimal)

/-! ## Layout -/

theorem ws_nil : Ws [] := by decide

theorem separator_first (indentLevel : Nat) (format : Bool) :
    Separator true (listStart format ++ getIndent indentLevel format) :=
  .first (ws_of_rfc (ws_listStart indentLevel format))

theorem separator_valueSep (indentLevel : Nat) (format : Bool) :
    Separator false (valueSep format ++ getIndent indentLevel format) := by
  obtain ⟨w, hw, heq⟩ := valueSep_eq format
  have hsep : Separator false ([] ++ chr ',' :: w) := .comma ws_nil (ws_of_rfc hw)
  rw [heq]
  exact hsep.append_ws (ws_of_rfc (ws_getIndent indentLevel format))

/-! ## Tokens -/

theorem hexLookup_plain : ∀ c : UInt8, c < 0x20 →
    StringBody [hexLookup (c >>> 4).toNat, hexLookup (c &&& 0xF).toNat] := by
  intro c hc
  have hplain : ∀ n, n < 32 → ∀ d ∈ [hexLookup (UInt8.ofNat n >>> 4).toNat,
      hexLookup (UInt8.ofNat n &&& 0xF).toNat], d ≠ chr '"' ∧ d ≠ chr '\\' ∧ d ≠ chr '\n' := by
    decide +kernel
  have h := hplain c.toNat (UInt8.lt_iff_toNat_lt.mp hc)
  simp only [UInt8.ofNat_toNat, List.mem_cons, List.not_mem_nil, or_false, forall_eq_or_imp,
    forall_eq] at h
  obtain ⟨⟨h₁, h₂, h₃⟩, h₄, h₅, h₆⟩ := h
  exact .plain h₁ h₂ h₃ (.plain h₄ h₅ h₆ .nil)

theorem stringBody_escape (c : UInt8) : StringBody (escape c) := by
  unfold escape
  split
  · exact .escape (by decide) .nil
  · exact .escape (by decide) .nil
  · exact .escape (by decide) .nil
  · exact .escape (by decide) .nil
  · exact .escape (by decide) .nil
  · exact .escape (by decide) .nil
  · exact .escape (by decide) .nil
  · next hnl _ _ hq hbs =>
    split
    · next hlt =>
      have hzeros : StringBody (bytes "\\u00") :=
        .escape (by decide) (.plain (by decide) (by decide) (by decide)
          (.plain (by decide) (by decide) (by decide) .nil))
      exact hzeros.append (hexLookup_plain c hlt)
    · exact .plain hq hbs hnl .nil

theorem stringToken_toStringLiteral (s : Bytes) : StringToken (toStringLiteral s) s := by
  refine ⟨s.flatMap escape, ?_, rfl, (fromStringLiteral_toStringLiteral s).symm⟩
  induction s with
  | nil => exact .nil
  | cons c s ih =>
    rw [List.flatMap_cons]
    exact (stringBody_escape c).append ih

theorem mem_intText {i : Int} {c : UInt8} (h : c ∈ intText i) : isdigit c = true ∨ c = chr '-' := by
  unfold intText at h
  split at h
  · rcases List.mem_cons.mp h with h | h
    · exact .inr h
    · exact .inl (isdigit_of_mem_natText h)
  · exact .inl (isdigit_of_mem_natText h)

theorem isDecimalMark_of_isdigit : ∀ c : UInt8, isdigit c = true → isDecimalMark c = false :=
  forall_byte (by decide +kernel)

theorem numberValue_intText (i : Integer) : numberValue (intText i.toInt) = some (.ok (.integer i)) := by
  have hmark : (intText i.toInt).any isDecimalMark = false := by
    rw [List.any_eq_false]
    intro c hc
    rcases mem_intText hc with h | rfl
    · simp [isDecimalMark_of_isdigit c h]
    · decide
  have h₁ := Int32.minValue_le_toInt i
  have h₂ := Int32.toInt_le i
  have hmin : Int32.minValue.toInt = -2147483648 := rfl
  have hmax : Int32.maxValue.toInt = 2147483647 := rfl
  have hread : fromCharsInt (-2 ^ 63) (2 ^ 63 - 1) (intText i.toInt) =
      (.ok i.toInt, (intText i.toInt).length) := fromCharsInt_intText (by omega) (by omega)
  simp only [numberValue, hmark, Bool.false_eq_true, if_false, hread, ne_eq, not_true_eq_false]
  rw [if_neg (by omega), Int32.ofInt_toInt]

theorem numberToken_intText (i : Integer) : NumberToken (intText i.toInt) (.ok (.integer i)) where
  head := by
    cases hs : intText i.toInt with
    | nil =>
      unfold intText at hs
      split at hs
      · cases hs
      · exact absurd hs (natText_ne_nil _)
    | cons c s =>
      have hc : c ∈ intText i.toInt := by rw [hs]; exact List.mem_cons_self
      refine ⟨c, s, rfl, ?_⟩
      rcases mem_intText hc with h | rfl
      · rw [h, Bool.true_or]
      · decide
  chars := by
    intro c hc
    rcases mem_intText hc with h | rfl
    · exact isNumberChar_of_isalnum (isalnum_of_isdigit h)
    · decide
  value := numberValue_intText i

/-! ## Values -/

theorem elements_stringify {indentLevel : Nat} {format : Bool} {close : Bytes} (hclose : Ws close)
    {vs : Array} (h : ∀ v ∈ vs, Derives (stringifyImplementation indentLevel format v) v) :
    Elements false (stringifyElements indentLevel format vs ++ close ++ [chr ']']) vs := by
  induction vs with
  | nil => exact .close hclose
  | cons v vs ih =>
    have hrest := ih fun w hw => h w (List.mem_cons_of_mem _ hw)
    have := Elements.item (separator_valueSep indentLevel format) (h v List.mem_cons_self) hrest
    simpa only [stringifyElements, List.append_assoc] using this

theorem members_stringify {indentLevel : Nat} {format : Bool} {close : Bytes} (hclose : Ws close)
    {ms : Object} (h : ∀ m ∈ ms, Derives (stringifyImplementation indentLevel format m.2) m.2) :
    Members false (stringifyMembers indentLevel format ms ++ close ++ [chr '}']) ms := by
  induction ms with
  | nil => exact .close hclose
  | cons m ms ih =>
    obtain ⟨key, v⟩ := m
    obtain ⟨w, hw, hkey⟩ := keySep_eq format
    have hrest := ih fun w hw => h w (List.mem_cons_of_mem _ hw)
    have := Members.item (separator_valueSep indentLevel format) (stringToken_toStringLiteral key)
      ws_nil (ws_of_rfc hw) (h (key, v) List.mem_cons_self) hrest
    simpa only [stringifyMembers, hkey, List.append_assoc, List.cons_append, List.nil_append] using this

/-- **The printed text derives the value.** -/
theorem derives_stringify {v : Value} (hw : v.WellFormed) (hd : v.NoDecimal) (indentLevel : Nat)
    (format : Bool) : Derives (stringifyImplementation indentLevel format v) v := by
  have hend := ws_of_rfc (ws_listEnd indentLevel format)
  induction v generalizing indentLevel with
  | null => exact .scalar .null
  | boolean b =>
    cases b with
    | false => exact .scalar .false_
    | true => exact .scalar .true_
  | integer i => exact .scalar (.number (numberToken_intText i))
  | decimal d => simp [NoDecimal, Value.Everywhere, Value.isDecimal] at hd
  | string s => exact .scalar (.string (stringToken_toStringLiteral s))
  | array vs ih =>
    rw [WellFormed, Value.everywhere_array] at hw
    rw [NoDecimal, Value.everywhere_array] at hd
    have hv : ∀ v ∈ vs, Derives (stringifyImplementation (indentLevel + 1) format v) v := fun v hv =>
      ih v hv (hw.2 v hv) (hd.2 v hv) _ (ws_of_rfc (ws_listEnd _ format))
    cases vs with
    | nil => exact .array (.close ws_nil)
    | cons v vs =>
      have hrest := elements_stringify hend fun w hw => hv w (List.mem_cons_of_mem _ hw)
      have := Elements.item (separator_first (indentLevel + 1) format) (hv v List.mem_cons_self) hrest
      have := Derives.array this
      simpa only [stringifyImplementation, List.append_assoc, List.cons_append] using this
  | object ms ih =>
    rw [WellFormed, Value.everywhere_object] at hw
    rw [NoDecimal, Value.everywhere_object] at hd
    have hm : ∀ m ∈ ms, Derives (stringifyImplementation (indentLevel + 1) format m.2) m.2 := fun m hm =>
      ih m hm (hw.2 m hm) (hd.2 m hm) _ (ws_of_rfc (ws_listEnd _ format))
    cases ms with
    | nil => exact .object (.close ws_nil) (by simp)
    | cons m ms =>
      obtain ⟨key, v⟩ := m
      obtain ⟨w, hws, hkey⟩ := keySep_eq format
      have hrest := members_stringify hend fun w hw => hm w (List.mem_cons_of_mem _ hw)
      have := Members.item (separator_first (indentLevel + 1) format) (stringToken_toStringLiteral key)
        ws_nil (ws_of_rfc hws) (hm (key, v) List.mem_cons_self) hrest
      have := Derives.object this hw.1
      simpa only [stringifyImplementation, hkey, List.append_assoc, List.cons_append,
        List.nil_append] using this

theorem text_stringify {v : Value} (hw : v.WellFormed) (hd : v.NoDecimal) (format : Bool) :
    Text (stringify v format) v :=
  ⟨[], _, [], ws_nil, derives_stringify hw hd 0 format, ws_nil, by simp [stringify]⟩

/-- **What is printed is parsed back**, for any order `w` in which the printer meets the members. -/
theorem parse_stringify {v w : Value} (hw : v.WellFormed) (hd : v.NoDecimal) (h : Reordered v w)
    (format : Bool) : parse (stringify w format) = .ok w ∧ v.eq w = true :=
  ⟨parse_text (text_stringify (h.wellFormed hw) (h.noDecimal hd) format), h.eq hw hd⟩

theorem parse_stringify_reordered :
    parse (stringify (.object [([0, 10, 34], .string [255, 92]), (bytes "a", .array [.integer (-1), .null])])
        true) =
      .ok (.object [([0, 10, 34], .string [255, 92]), (bytes "a", .array [.integer (-1), .null])]) ∧
    (Value.object [(bytes "a", .array [.integer (-1), .null]), ([0, 10, 34], .string [255, 92])]).eq
      (.object [([0, 10, 34], .string [255, 92]), (bytes "a", .array [.integer (-1), .null])]) = true := by
  apply parse_stringify
  · simp [WellFormed, Value.Everywhere, Value.EverywhereMembers, Value.EverywhereElems,
      Value.DistinctKeys, bytes]
  · simp [NoDecimal, Value.Everywhere, Value.EverywhereMembers, Value.EverywhereElems, Value.isDecimal]
  · exact .object (List.Perm.swap _ _ _) rfl (.cons (.refl _) (.cons (.refl _) .nil))

end Lsp.Json
