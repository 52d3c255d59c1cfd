import LspFramework.Json.Conformance.Strings

/-!
# The spellings of a character

A character of a string literal is written in UTF-8, as an escape of one letter, as `\u` with four
hex digits, or, above `U+FFFF`, as two such escapes of a surrogate pair.  `fromStringLiteral` reads
every `\u` by itself, so it writes a pair as the three bytes of each surrogate:

    fromStringLiteral (literal xs) = xs.flatMap Spelled.read           (fromStringLiteral_literal)
    … = the UTF-8 form of the characters ↔ no pair is escaped          (fromStringLiteral_utf8_iff)
-/

namespace Lsp.Json

open Chars Unicode
open Rfc8259 (simpleEscapes)

structure Hex4 where
  digits : Bytes
  length : digits.length = 4
  hex : ∀ d ∈ digits, isDigitOf 16 d = true

def Hex4.value (x : Hex4) : Nat := valueOf 16 x.digits

def Hex4.text (x : Hex4) : Bytes := chr '\\' :: chr 'u' :: x.digits

/-- A character in one of its spellings. -/
inductive Spelled where
  | raw (c : Char) (control : 0x20 ≤ c.toNat) (quote : c ≠ '"') (backslash : c ≠ '\\')
  | letter (c : Char) (e : UInt8) (table : (e, c.toNat) ∈ simpleEscapes)
  | unicode (c : Char) (x : Hex4) (value : c.toNat = x.value)
  | pair (c : Char) (high low : Hex4) (values : utf16 c.toNat = [high.value, low.value])

namespace Spelled

def char : Spelled → Char
  | raw c _ _ _ => c
  | letter c _ _ => c
  | unicode c _ _ => c
  | pair c _ _ _ => c

def text : Spelled → Bytes
  | raw c _ _ _ => String.utf8EncodeChar c
  | letter _ e _ => [chr '\\', e]
  | unicode _ x _ => x.text
  | pair _ high low _ => high.text ++ low.text

def isPair : Spelled → Bool
  | pair _ _ _ _ => true
  | _ => false

/-- What `fromStringLiteral` makes of the text. -/
def read : Spelled → Bytes
  | pair _ high low _ => utf8 high.value ++ utf8 low.value
  | x => utf8 x.char.toNat

end Spelled

def literal (xs : List Spelled) : Bytes := chr '"' :: xs.flatMap Spelled.text ++ [chr '"']

/-! ## One character -/

theorem unescapeLoop_of_reads {t : Bytes} {n : Nat} (h : ReadsChar t (utf16 n)) (s : Bytes) :
    unescapeLoop 0 (t ++ s) = utf8 n ++ unescapeLoop 0 s := by
  obtain ⟨-, m, -, heq, hun⟩ := h
  rw [utf16_inj heq]
  exact hun s

theorem Hex4.value_lt (x : Hex4) : x.value < 0x10000 := valueOf_hex_lt x.length x.hex

theorem unescapeLoop_hex4 (x : Hex4) (s : Bytes) :
    unescapeLoop 0 (x.text ++ s) = utf8 x.value ++ unescapeLoop 0 s := by
  have hreads : ReadsChar x.text [x.value] := readsChar_unicode x.length x.hex
  rw [show [x.value] = utf16 x.value from (if_pos x.value_lt).symm] at hreads
  exact unescapeLoop_of_reads hreads s

theorem unescapeLoop_spelled (x : Spelled) (s : Bytes) :
    unescapeLoop 0 (x.text ++ s) = x.read ++ unescapeLoop 0 s := by
  cases x with
  | raw c h₁ h₂ h₃ => exact unescapeLoop_of_reads (readsChar_unescaped h₁ h₂ h₃) s
  | letter c e h =>
    have hreads := readsChar_escape h
    have hlt : c.toNat < 0x10000 := by
      have htable : ∀ p ∈ simpleEscapes, p.2 < 0x10000 := by decide
      exact htable _ h
    rw [show [c.toNat] = utf16 c.toNat from (if_pos hlt).symm] at hreads
    exact unescapeLoop_of_reads hreads s
  | unicode c x h =>
    show _ = utf8 c.toNat ++ _
    rw [h]
    exact unescapeLoop_hex4 x s
  | pair c high low h =>
    rw [Spelled.text, Spelled.read, List.append_assoc, unescapeLoop_hex4, unescapeLoop_hex4,
      List.append_assoc]

/-! ## Strings -/

theorem fromStringLiteral_literal (xs : List Spelled) :
    fromStringLiteral (literal xs) = xs.flatMap Spelled.read := by
  rw [fromStringLiteral, literal, removeQuotes_quoted]
  induction xs with
  | nil => rfl
  | cons x xs ih => rw [List.flatMap_cons, List.flatMap_cons, unescapeLoop_spelled, ih]

/-- A pair is read as six bytes instead of four. -/
theorem length_read (x : Spelled) :
    if x.isPair then x.read.length = 6 ∧ (utf8 x.char.toNat).length = 4 else x.read = utf8 x.char.toNat := by
  cases x with
  | raw | letter | unicode => rfl
  | pair c high low h =>
    obtain ⟨hc, hhigh, hlow⟩ := utf16_pair (char_lt c) h
    have hthree : ∀ n, 0xD800 ≤ n → n < 0x10000 → (utf8 n).length = 3 := by
      intro n h₁ h₂
      rw [utf8, if_neg (by omega), if_neg (by omega), if_pos h₂]
      rfl
    constructor
    · rw [Spelled.read, List.length_append, hthree high.value (by omega) (by omega),
        hthree low.value (by omega) (by omega)]
    · show (utf8 c.toNat).length = 4
      rw [utf8, if_neg (by omega), if_neg (by omega), if_neg (by omega)]
      rfl

/-- Each pair makes the string two bytes longer. -/
theorem length_flatMap_read (xs : List Spelled) :
    ((xs.map Spelled.char).flatMap String.utf8EncodeChar).length + 2 * (xs.filter Spelled.isPair).length =
      (xs.flatMap Spelled.read).length := by
  induction xs with
  | nil => rfl
  | cons x xs ih =>
    have hx := length_read x
    rw [List.map_cons, List.flatMap_cons, List.flatMap_cons, List.length_append, List.length_append, utf8_char,
      List.filter_cons]
    split
    · next hp =>
      rw [if_pos hp] at hx
      rw [List.length_cons]
      omega
    · next hp =>
      rw [if_neg hp] at hx
      rw [hx]
      omega

/-- **A literal is read as the characters it spells** exactly when none is spelled by a surrogate pair. -/
theorem fromStringLiteral_utf8_iff (xs : List Spelled) :
    fromStringLiteral (literal xs) = (xs.map Spelled.char).flatMap String.utf8EncodeChar ↔
      ∀ x ∈ xs, x.isPair = false := by
  rw [fromStringLiteral_literal]
  constructor
  · intro heq x hx
    have hlen := length_flatMap_read xs
    rw [← heq] at hlen
    have hnone : xs.filter Spelled.isPair = [] := List.length_eq_zero_iff.mp (by omega)
    exact Bool.eq_false_iff.mpr (List.filter_eq_nil_iff.mp hnone x hx)
  · intro h
    rw [List.flatMap_map]
    refine List.flatMap_congr fun x hx => ?_
    have hread := length_read x
    rw [h x hx, if_neg Bool.false_ne_true] at hread
    rw [hread, utf8_char]

/-- The surrogate pair of `U+1F600`. -/
def escapedPair : Spelled :=
  .pair (Char.ofNat 0x1F600) ⟨bytes "D83D", by decide, by decide +kernel⟩
    ⟨bytes "DE00", by decide, by decide +kernel⟩ (by decide)

theorem fromStringLiteral_escapedPair :
    literal [escapedPair] = bytes "\"\\uD83D\\uDE00\"" ∧
    fromStringLiteral (literal [escapedPair]) = [0xED, 0xA0, 0xBD, 0xED, 0xB8, 0x80] ∧
    String.utf8EncodeChar escapedPair.char = [0xF0, 0x9F, 0x98, 0x80] := by
  decide +kernel

end Lsp.Json
