import LspFramework.Lib.Rfc8259
import LspFramework.Json.Machine

/-!
# What the parser reads from the strings of RFC 8259

The parser puts the UTF-8 form of every code point into its string, an escaped surrogate included,
so two keys with different code units are different keys for it:

    StringText t us → ∃ s, StringToken t s ∧ Reads us s                (stringToken_of_stringText)
    Reads us s → Reads us' s → us = us'                                (Reads.unique)
-/

namespace Lsp.Json

open Chars Unicode
open Rfc8259 (CharText CharsText StringText simpleEscapes)

/-! ## Code points -/

/-- The bytes encode code points whose UTF-16 form is `us`. -/
def Reads (us : List Nat) (s : Bytes) : Prop :=
  ∃ cps : List Nat, (∀ n ∈ cps, n < 0x110000) ∧ us = cps.flatMap utf16 ∧ s = cps.flatMap utf8

theorem Reads.unique {us us' : List Nat} {s : Bytes} (h : Reads us s) (h' : Reads us' s) : us = us' := by
  obtain ⟨ns, hns, rfl, rfl⟩ := h
  obtain ⟨ms, hms, rfl, heq⟩ := h'
  rw [flatMap_utf8_inj hns hms heq]

theorem Reads.nil : Reads [] [] := ⟨[], by simp, rfl, rfl⟩

theorem Reads.cons {n : Nat} (hn : n < 0x110000) {us : List Nat} {s : Bytes} (h : Reads us s) :
    Reads (utf16 n ++ us) (utf8 n ++ s) := by
  obtain ⟨ns, hns, rfl, rfl⟩ := h
  refine ⟨n :: ns, ?_, rfl, rfl⟩
  intro m hm
  rcases List.mem_cons.mp hm with rfl | hm
  · exact hn
  · exact hns m hm

theorem or_eq_add {a b k : Nat} (hb : b < 2 ^ k) : 2 ^ k * a ||| b = 2 ^ k * a + b :=
  (Nat.two_pow_add_eq_or_of_lt hb a).symm

/-- **The parser writes the UTF-8 form.** -/
theorem appendCodePointAsUtf8_eq {n : Nat} (hn : n < 0x110000) : appendCodePointAsUtf8 n = utf8 n := by
  have hlow : ∀ m, 0x80 ||| (m &&& 0x3F) = 0x80 + m % 0x40 := by
    intro m
    rw [show 0x3F = 2 ^ 6 - 1 from rfl, Nat.and_two_pow_sub_one_eq_mod]
    exact or_eq_add (a := 2) (k := 6) (Nat.mod_lt _ (by decide))
  have h₂ : 0xC0 ||| ((n >>> 6) &&& 0x1F) = 0xC0 + n / 0x40 % 0x20 := by
    rw [show 0x1F = 2 ^ 5 - 1 from rfl, Nat.and_two_pow_sub_one_eq_mod, Nat.shiftRight_eq_div_pow]
    exact or_eq_add (a := 6) (k := 5) (Nat.mod_lt _ (by decide))
  have h₃ : 0xE0 ||| ((n >>> 12) &&& 0xF) = 0xE0 + n / 0x1000 % 0x10 := by
    rw [show 0xF = 2 ^ 4 - 1 from rfl, Nat.and_two_pow_sub_one_eq_mod, Nat.shiftRight_eq_div_pow]
    exact or_eq_add (a := 14) (k := 4) (Nat.mod_lt _ (by decide))
  have h₄ : 0xF0 ||| ((n >>> 18) &&& 0x7) = 0xF0 + n / 0x40000 % 0x8 := by
    rw [show 0x7 = 2 ^ 3 - 1 from rfl, Nat.and_two_pow_sub_one_eq_mod, Nat.shiftRight_eq_div_pow]
    exact or_eq_add (a := 30) (k := 3) (Nat.mod_lt _ (by decide))
  have hs₆ : n >>> 6 = n / 0x40 := Nat.shiftRight_eq_div_pow n 6
  have hs₁₂ : n >>> 12 = n / 0x1000 := Nat.shiftRight_eq_div_pow n 12
  unfold appendCodePointAsUtf8 utf8
  rw [hlow n, hlow (n >>> 6), hlow (n >>> 12), h₂, h₃, h₄, hs₆, hs₁₂]
  split
  · rfl
  · split
    · rw [Nat.mod_eq_of_lt (by omega : n / 0x40 < 0x20)]
    · split
      · rw [Nat.mod_eq_of_lt (by omega : n / 0x1000 < 0x10)]
      · rw [if_pos (by omega), Nat.mod_eq_of_lt (by omega : n / 0x40000 < 0x8)]

/-! ## One character -/

/-- The text of a character is read as one code point, wherever it stands. -/
def ReadsChar (t : Bytes) (us : List Nat) : Prop :=
  StringBody t ∧ ∃ n, n < 0x110000 ∧ us = utf16 n ∧ ∀ s, unescapeLoop 0 (t ++ s) = utf8 n ++ unescapeLoop 0 s

theorem stringBody_plain {t : Bytes} (h : ∀ b ∈ t, b ≠ chr '"' ∧ b ≠ chr '\\' ∧ b ≠ chr '\n') :
    StringBody t := by
  induction t with
  | nil => exact .nil
  | cons b t ih =>
    obtain ⟨h₁, h₂, h₃⟩ := h b List.mem_cons_self
    exact .plain h₁ h₂ h₃ (ih fun c hc => h c (List.mem_cons_of_mem _ hc))

theorem unescapeLoop_plain_append {t : Bytes} (h : ∀ b ∈ t, b ≠ chr '\\') (s : Bytes) :
    unescapeLoop 0 (t ++ s) = t ++ unescapeLoop 0 s := by
  induction t with
  | nil => rfl
  | cons b t ih =>
    rw [List.cons_append, unescapeLoop_plain (h b List.mem_cons_self),
      ih fun c hc => h c (List.mem_cons_of_mem _ hc), List.cons_append]

/-- A byte of an unescaped character is none of those a string cannot hold. -/
theorem utf8_unescaped {c : Char} (h₁ : 0x20 ≤ c.toNat) (h₂ : c ≠ '"') (h₃ : c ≠ '\\') {b : UInt8}
    (hb : b ∈ utf8 c.toNat) : b ≠ chr '"' ∧ b ≠ chr '\\' ∧ b ≠ chr '\n' := by
  by_cases hlt : c.toNat < 0x80
  · rw [utf8_ascii hlt, List.mem_singleton] at hb
    subst hb
    have hne : ∀ d : Char, c ≠ d → d.toNat < 0x80 → UInt8.ofNat c.toNat ≠ chr d := by
      intro d hd hd' heq
      rw [chr, ofNat_eq_iff (by omega) (by omega)] at heq
      exact hd (Char.toNat_inj.mp heq)
    refine ⟨hne _ h₂ (by decide), hne _ h₃ (by decide), ?_⟩
    exact hne _ (by rintro rfl; revert h₁; decide) (by decide)
  · have := utf8_high (by omega) (char_lt c) hb
    refine ⟨?_, ?_, ?_⟩ <;> (rintro rfl; revert this; decide)

theorem readsChar_unescaped {c : Char} (h₁ : 0x20 ≤ c.toNat) (h₂ : c ≠ '"') (h₃ : c ≠ '\\') :
    ReadsChar (String.utf8EncodeChar c) (utf16 c.toNat) := by
  rw [utf8_char]
  refine ⟨stringBody_plain fun b hb => utf8_unescaped h₁ h₂ h₃ hb, c.toNat, char_lt c, rfl, ?_⟩
  exact unescapeLoop_plain_append fun b hb => (utf8_unescaped h₁ h₂ h₃ hb).2.1

theorem readsChar_escape {e : UInt8} {n : Nat} (h : (e, n) ∈ simpleEscapes) :
    ReadsChar [chr '\\', e] [n] := by
  have htable : ∀ p ∈ simpleEscapes, p.1 ≠ chr '\n' ∧ p.2 < 0x80 ∧ ∀ s, unescape p.1 s = (utf8 p.2, 0) := by
    simp only [simpleEscapes, List.forall_mem_cons, List.not_mem_nil, false_implies, implies_true, and_true]
    refine ⟨?_, ?_, ?_, ?_, ?_, ?_, ?_, ?_⟩ <;> exact ⟨by decide, by decide, fun _ => rfl⟩
  obtain ⟨hnl, hlt, hun⟩ := htable _ h
  refine ⟨.escape hnl .nil, n, by omega, ?_, ?_⟩
  · rw [utf16, if_pos (by omega)]
  · intro s
    rw [List.cons_append, List.singleton_append, unescapeLoop_escape, hun]

theorem hexDigit_plain : ∀ d : UInt8, isDigitOf 16 d = true →
    (d ≠ chr '"' ∧ d ≠ chr '\\' ∧ d ≠ chr '\n') ∧ digitVal d < 16 :=
  forall_byte (by decide +kernel)

theorem unescapeLoop_skip (t s : Bytes) : unescapeLoop t.length (t ++ s) = unescapeLoop 0 s := by
  induction t with
  | nil => rfl
  | cons b t ih => exact ih

theorem valueOf_hex_lt {ds : Bytes} (hlen : ds.length = 4) (hds : ∀ d ∈ ds, isDigitOf 16 d = true) :
    valueOf 16 ds < 0x10000 := by
  obtain ⟨a, b, c, d, rfl⟩ : ∃ a b c d, ds = [a, b, c, d] := by
    match ds, hlen with
    | [a, b, c, d], _ => exact ⟨a, b, c, d, rfl⟩
  have h := fun x hx => (hexDigit_plain x (hds x hx)).2
  simp only [List.forall_mem_cons, List.not_mem_nil, false_implies, implies_true, and_true] at h
  simp only [valueOf, List.foldl_cons, List.foldl_nil]
  omega

theorem readsChar_unicode {ds : Bytes} (hlen : ds.length = 4) (hds : ∀ d ∈ ds, isDigitOf 16 d = true) :
    ReadsChar (chr '\\' :: chr 'u' :: ds) [valueOf 16 ds] := by
  have hval := valueOf_hex_lt hlen hds
  refine ⟨.escape (by decide) (stringBody_plain fun d hd => (hexDigit_plain d (hds d hd)).1),
    valueOf 16 ds, by omega, by rw [utf16, if_pos hval], ?_⟩
  intro s
  have htake : (ds ++ s).take 4 = ds := by rw [← hlen, List.take_left]
  have hrun : ds.takeWhile (isDigitOf 16) = ds := by
    have := takeWhile_append_stop (r := []) hds (by simp)
    rwa [List.append_nil] at this
  have hread : fromChars 16 (2 ^ 32 - 1) ds = (.ok (valueOf 16 ds), 4) := by
    have hne : ds ≠ [] := by
      rintro rfl
      cases hlen
    simp only [fromChars, hrun, hne, if_false, hlen]
    rw [if_neg (by omega)]
  have hun : unescape (chr 'u') (ds ++ s) = (utf8 (valueOf 16 ds), 4) := by
    have hlong : 4 ≤ (ds ++ s).length := by
      rw [List.length_append]
      omega
    rw [show unescape (chr 'u') = unescapeUnicode from rfl, unescapeUnicode, if_pos hlong, htake, hread]
    simp only [appendCodePointAsUtf8_eq (show valueOf 16 ds < 0x110000 by omega)]
  have hskip := unescapeLoop_skip ds s
  rw [hlen] at hskip
  rw [List.cons_append, List.cons_append, unescapeLoop_escape, hun, hskip]

/-! ## Strings -/

theorem readsChar_of_charText {t : Bytes} {us : List Nat} (h : CharText t us) : ReadsChar t us := by
  cases h with
  | unescaped h₁ h₂ h₃ => exact readsChar_unescaped h₁ h₂ h₃
  | escape h => exact readsChar_escape h
  | unicode hlen hds => exact readsChar_unicode hlen hds

theorem reads_of_charsText {body : Bytes} {us : List Nat} (h : CharsText body us) :
    StringBody body ∧ Reads us (unescapeLoop 0 body) := by
  induction h with
  | nil => exact ⟨.nil, .nil⟩
  | cons hc _ ih =>
    obtain ⟨hbody, n, hn, rfl, hun⟩ := readsChar_of_charText hc
    refine ⟨hbody.append ih.1, ?_⟩
    rw [hun]
    exact ih.2.cons hn

/-- **A string of the RFC is a string token.** -/
theorem stringToken_of_stringText {t : Bytes} {us : List Nat} (h : StringText t us) :
    ∃ s, StringToken t s ∧ Reads us s := by
  obtain ⟨body, hbody, rfl⟩ := h
  obtain ⟨htok, hreads⟩ := reads_of_charsText hbody
  refine ⟨_, ⟨body, htok, rfl, rfl⟩, ?_⟩
  rwa [fromStringLiteral, removeQuotes_quoted]

end Lsp.Json
