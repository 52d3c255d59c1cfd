import LspFramework.Json.Value

/-!
# String literals

`toStringLiteral` quotes and escapes, `fromStringLiteral` removes the quotes and undoes the
escapes; the latter is lenient and leaves what it does not understand in place.

    fromStringLiteral (toStringLiteral s) = s        (fromStringLiteral_toStringLiteral)

for every byte string `s`, whether it is UTF-8 or not.
-/

namespace Lsp.Json

open Chars

/-! ## Algorithm -/

def hexLookup (n : Nat) : UInt8 := (bytes "0123456789ABCDEF").getD n 0

/-- One turn of the loop in `toStringLiteral`. -/
def escape (c : UInt8) : Bytes :=
  match c with
  | chr '\x08' => bytes "\\b"
  | chr '\t' => bytes "\\t"
  | chr '\n' => bytes "\\n"
  | chr '\x0c' => bytes "\\f"
  | chr '\r' => bytes "\\r"
  | chr '"' => bytes "\\\""
  | chr '\\' => bytes "\\\\"
  | c =>
    if c < 0x20 then bytes "\\u00" ++ [hexLookup (c >>> 4).toNat, hexLookup (c &&& 0xF).toNat]
    else [c]

def toStringLiteral (str : Bytes) : Bytes := chr '"' :: str.flatMap escape ++ [chr '"']

/-- The bytes `appendCodePointAsUtf8` appends. -/
def appendCodePointAsUtf8 (codepoint : Nat) : Bytes :=
  if codepoint < 0x80 then
    [UInt8.ofNat codepoint]
  else if codepoint < 0x800 then
    [UInt8.ofNat (0xC0 ||| ((codepoint >>> 6) &&& 0x1F)),
     UInt8.ofNat (0x80 ||| (codepoint &&& 0x3F))]
  else if codepoint < 0x10000 then
    [UInt8.ofNat (0xE0 ||| ((codepoint >>> 12) &&& 0xF)),
     UInt8.ofNat (0x80 ||| ((codepoint >>> 6) &&& 0x3F)),
     UInt8.ofNat (0x80 ||| (codepoint &&& 0x3F))]
  else if codepoint < 0x200000 then
    [UInt8.ofNat (0xF0 ||| ((codepoint >>> 18) &&& 0x7)),
     UInt8.ofNat (0x80 ||| ((codepoint >>> 12) &&& 0x3F)),
     UInt8.ofNat (0x80 ||| ((codepoint >>> 6) &&& 0x3F)),
     UInt8.ofNat (0x80 ||| (codepoint &&& 0x3F))]
  else bytes "?"

/-- The escape `\u` before `s`: what it appends and how far it moves the index on. -/
def unescapeUnicode (s : Bytes) : Bytes × Nat :=
  if 4 ≤ s.length then
    match fromChars 16 (2 ^ 32 - 1) (s.take 4) with
    | (.ok codepoint, 4) => (appendCodePointAsUtf8 codepoint, 4)
    | (_, len) => (bytes "\\u" ++ s.take len, len)
  else (bytes "\\u" ++ s, s.length)

/-- The escape `\e` before `s`. -/
def unescape (e : UInt8) (s : Bytes) : Bytes × Nat :=
  match e with
  | chr '0' => ([0], 0)
  | chr 'a' => ([7], 0)
  | chr 'b' => ([8], 0)
  | chr 't' => ([9], 0)
  | chr 'n' => ([10], 0)
  | chr 'v' => ([11], 0)
  | chr 'f' => ([12], 0)
  | chr 'r' => ([13], 0)
  | chr 'u' => unescapeUnicode s
  | e => ([e], 0)

/-- The loop of `fromStringLiteral`; the number counts the bytes the index still jumps over. -/
def unescapeLoop : Nat → Bytes → Bytes
  | _, [] => []
  | skip + 1, _ :: s => unescapeLoop skip s
  | 0, [c] => [c]
  | 0, c :: e :: s =>
    if c = chr '\\' then (unescape e s).1 ++ unescapeLoop (unescape e s).2 s
    else c :: unescapeLoop 0 (e :: s)

def removeQuotes (str : Bytes) : Bytes :=
  let str := if str.head? = some (chr '"') then str.tail else str
  if str.getLast? = some (chr '"') then str.dropLast else str

def fromStringLiteral (str : Bytes) : Bytes := unescapeLoop 0 (removeQuotes str)

/-! ## Lemmas -/

theorem removeQuotes_quoted (body : Bytes) :
    removeQuotes (chr '"' :: body ++ [chr '"']) = body := by
  simp [removeQuotes]

theorem unescapeLoop_plain {c : UInt8} (h : c ≠ chr '\\') (s : Bytes) :
    unescapeLoop 0 (c :: s) = c :: unescapeLoop 0 s := by
  cases s with
  | nil => rfl
  | cons e s => simp only [unescapeLoop, h, if_false]

theorem unescapeLoop_escape (e : UInt8) (s : Bytes) :
    unescapeLoop 0 (chr '\\' :: e :: s) = (unescape e s).1 ++ unescapeLoop (unescape e s).2 s := by
  simp only [unescapeLoop, if_true]

/-- The four hex digits `escape` writes for a control byte are read back as that byte. -/
theorem fromChars_control : ∀ n, n < 32 →
    fromChars 16 (2 ^ 32 - 1) (bytes "00" ++ [hexLookup (UInt8.ofNat n >>> 4).toNat,
      hexLookup (UInt8.ofNat n &&& 0xF).toNat]) = (.ok n, 4) := by
  decide +kernel

theorem unescapeLoop_control {c : UInt8} (h : c < 0x20) (s : Bytes) :
    unescapeLoop 0 (bytes "\\u00" ++ [hexLookup (c >>> 4).toNat, hexLookup (c &&& 0xF).toNat] ++ s) =
      c :: unescapeLoop 0 s := by
  have hlt : c.toNat < 32 := UInt8.lt_iff_toNat_lt.mp h
  have hdig := fromChars_control c.toNat hlt
  rw [UInt8.ofNat_toNat] at hdig
  have hu : unescapeUnicode (bytes "00" ++ [hexLookup (c >>> 4).toNat, hexLookup (c &&& 0xF).toNat] ++ s) =
      ([c], 4) := by
    have hlen : 4 ≤ (bytes "00" ++ [hexLookup (c >>> 4).toNat, hexLookup (c &&& 0xF).toNat] ++ s).length := by
      simp [bytes]
    have htake : (bytes "00" ++ [hexLookup (c >>> 4).toNat, hexLookup (c &&& 0xF).toNat] ++ s).take 4 =
        bytes "00" ++ [hexLookup (c >>> 4).toNat, hexLookup (c &&& 0xF).toNat] := by
      simp [bytes]
    have hutf : appendCodePointAsUtf8 c.toNat = [c] := by
      simp only [appendCodePointAsUtf8, show c.toNat < 0x80 by omega, if_true, UInt8.ofNat_toNat]
    simp only [unescapeUnicode, hlen, if_true, htake, hdig, hutf]
  calc unescapeLoop 0 (bytes "\\u00" ++ [hexLookup (c >>> 4).toNat, hexLookup (c &&& 0xF).toNat] ++ s)
      = unescapeLoop 0 (chr '\\' :: chr 'u' ::
          (bytes "00" ++ [hexLookup (c >>> 4).toNat, hexLookup (c &&& 0xF).toNat] ++ s)) := rfl
    _ = [c] ++ unescapeLoop 4
          (bytes "00" ++ [hexLookup (c >>> 4).toNat, hexLookup (c &&& 0xF).toNat] ++ s) := by
        rw [unescapeLoop_escape, show unescape (chr 'u') = unescapeUnicode from rfl, hu]
    _ = c :: unescapeLoop 0 s := by simp [bytes, unescapeLoop]

/-- **One escaped byte is read back.** -/
theorem unescapeLoop_escape_append (c : UInt8) (s : Bytes) :
    unescapeLoop 0 (escape c ++ s) = c :: unescapeLoop 0 s := by
  unfold escape
  split
  · exact unescapeLoop_escape _ _
  · exact unescapeLoop_escape _ _
  · exact unescapeLoop_escape _ _
  · exact unescapeLoop_escape _ _
  · exact unescapeLoop_escape _ _
  · exact unescapeLoop_escape _ _
  · exact unescapeLoop_escape _ _
  · next hbs =>
    split
    · next hlt => exact unescapeLoop_control hlt s
    · exact unescapeLoop_plain hbs s

theorem unescapeLoop_flatMap_escape (s : Bytes) : unescapeLoop 0 (s.flatMap escape) = s := by
  induction s with
  | nil => rfl
  | cons c s ih => rw [List.flatMap_cons, unescapeLoop_escape_append, ih]

theorem fromStringLiteral_toStringLiteral (s : Bytes) : fromStringLiteral (toStringLiteral s) = s := by
  rw [fromStringLiteral, toStringLiteral, removeQuotes_quoted, unescapeLoop_flatMap_escape]

example : fromStringLiteral (bytes "\"\\u0041\\u00DF\"") = [0x41, 0xC3, 0x9F] := by decide +kernel

end Lsp.Json
