import LspFramework.Lib.Unicode

/-!
# JSON texts (RFC 8259)

The grammar of the RFC over byte strings, with what each rule denotes.  A string denotes the
sequence of its UTF-16 code units: an unescaped character counts with its one or two units, `\u`
with the unit it spells, so a pair of escaped surrogates is the character they encode.

* `Number`: the parts of a number; `Number.num / Number.den` is its magnitude.
* `Text text j`: the bytes are a JSON text with the structure `j`.
-/

namespace Rfc8259

open Chars Unicode

/-! ## Numbers -/

def Digits (ds : Bytes) : Prop := ds ≠ [] ∧ ∀ c ∈ ds, isdigit c = true

inductive Sign where
  | plus
  | minus
  deriving DecidableEq, Repr

def Sign.text : Option Sign → Bytes
  | none => []
  | some .plus => [chr '+']
  | some .minus => [chr '-']

structure Exponent where
  mark : UInt8
  sign : Option Sign
  digits : Bytes
  mark_ok : mark = chr 'e' ∨ mark = chr 'E'
  digits_ok : Digits digits

def Exponent.text (x : Exponent) : Bytes := x.mark :: Sign.text x.sign ++ x.digits

def Exponent.value (x : Exponent) : Int :=
  if x.sign = some .minus then -(valueOf 10 x.digits : Int) else valueOf 10 x.digits

/-- A number without a fraction has nothing to check there. -/
theorem digits_of_none : ∀ ds : Bytes, none = some ds → Digits ds := nofun

structure Number where
  minus : Bool
  int : Bytes
  frac : Option Bytes
  exp : Option Exponent
  int_ok : Digits int ∧ (int.head? = some (chr '0') → int = [chr '0'])
  frac_ok : ∀ ds, frac = some ds → Digits ds

namespace Number

def fracText : Option Bytes → Bytes
  | none => []
  | some ds => chr '.' :: ds

def expText : Option Exponent → Bytes
  | none => []
  | some x => x.text

def text (n : Number) : Bytes :=
  (if n.minus then [chr '-'] else []) ++ n.int ++ fracText n.frac ++ expText n.exp

/-- The power of ten behind the digits of the integer and the fraction. -/
def scale (n : Number) : Int := (n.exp.map Exponent.value).getD 0 - (n.frac.getD []).length

def num (n : Number) : Nat := valueOf 10 (n.int ++ n.frac.getD []) * 10 ^ n.scale.toNat

def den (n : Number) : Nat := 10 ^ (-n.scale).toNat

/-- The number, where its denominator is one. -/
def integer (n : Number) : Int := if n.minus then -(n.num : Int) else n.num

/-- Neither a fraction nor an exponent. -/
def IsInteger (n : Number) : Prop := n.frac = none ∧ n.exp = none

/-- The exponent is written with a plus sign. -/
def ExplicitPlus (n : Number) : Prop := ∃ x, n.exp = some x ∧ x.sign = some .plus

end Number

/-! ## Strings -/

/-- The escapes of one letter and what they denote. -/
def simpleEscapes : List (UInt8 × Nat) :=
  [(chr '"', 0x22), (chr '\\', 0x5C), (chr '/', 0x2F), (chr 'b', 0x08), (chr 'f', 0x0C), (chr 'n', 0x0A),
    (chr 'r', 0x0D), (chr 't', 0x09)]

/-- One character and its code units. -/
inductive CharText : Bytes → List Nat → Prop
  | unescaped {c : Char} : 0x20 ≤ c.toNat → c ≠ '"' → c ≠ '\\' →
      CharText (String.utf8EncodeChar c) (utf16 c.toNat)
  | escape {e : UInt8} {n : Nat} : (e, n) ∈ simpleEscapes → CharText [chr '\\', e] [n]
  | unicode {ds : Bytes} : ds.length = 4 → (∀ d ∈ ds, isDigitOf 16 d = true) →
      CharText (chr '\\' :: chr 'u' :: ds) [valueOf 16 ds]

inductive CharsText : Bytes → List Nat → Prop
  | nil : CharsText [] []
  | cons {t s : Bytes} {us vs : List Nat} : CharText t us → CharsText s vs → CharsText (t ++ s) (us ++ vs)

def StringText (t : Bytes) (us : List Nat) : Prop :=
  ∃ body, CharsText body us ∧ t = chr '"' :: body ++ [chr '"']

/-! ## Values -/

inductive Json where
  | null
  | boolean (b : Bool)
  | number (n : Number)
  | string (us : List Nat)
  | array (js : List Json)
  | object (ms : List (List Nat × Json))

def Ws (w : Bytes) : Prop := ∀ c ∈ w, c = chr ' ' ∨ c = chr '\t' ∨ c = chr '\n' ∨ c = chr '\r'

instance (w : Bytes) : Decidable (Ws w) := List.decidableBAll _ w

theorem Ws.nil : Ws [] := by decide

theorem Ws.append {w w' : Bytes} (h : Ws w) (h' : Ws w') : Ws (w ++ w') :=
  fun c hc => (List.mem_append.mp hc).elim (h c) (h' c)

mutual

inductive ValueText : Bytes → Json → Prop
  | null : ValueText (bytes "null") .null
  | true_ : ValueText (bytes "true") (.boolean true)
  | false_ : ValueText (bytes "false") (.boolean false)
  | number (n : Number) : ValueText n.text (.number n)
  | string {t : Bytes} {us : List Nat} : StringText t us → ValueText t (.string us)
  | emptyArray {w : Bytes} : Ws w → ValueText (chr '[' :: w ++ [chr ']']) (.array [])
  | array {t : Bytes} {js : List Json} : ElementsText t js → ValueText (chr '[' :: t ++ [chr ']']) (.array js)
  | emptyObject {w : Bytes} : Ws w → ValueText (chr '{' :: w ++ [chr '}']) (.object [])
  | object {t : Bytes} {ms : List (List Nat × Json)} : MembersText t ms →
      ValueText (chr '{' :: t ++ [chr '}']) (.object ms)

/-- One or more values with white space around each and commas between them. -/
inductive ElementsText : Bytes → List Json → Prop
  | last {w t w' : Bytes} {j : Json} : Ws w → ValueText t j → Ws w' → ElementsText (w ++ t ++ w') [j]
  | more {w t w' t' : Bytes} {j : Json} {js : List Json} : Ws w → ValueText t j → Ws w' →
      ElementsText t' js → ElementsText (w ++ t ++ w' ++ chr ',' :: t') (j :: js)

/-- One or more members, in the same way. -/
inductive MembersText : Bytes → List (List Nat × Json) → Prop
  | last {w k w₁ w₂ t w' : Bytes} {us : List Nat} {j : Json} : Ws w → StringText k us → Ws w₁ → Ws w₂ →
      ValueText t j → Ws w' → MembersText (w ++ k ++ w₁ ++ chr ':' :: w₂ ++ t ++ w') [(us, j)]
  | more {w k w₁ w₂ t w' t' : Bytes} {us : List Nat} {j : Json} {ms : List (List Nat × Json)} : Ws w →
      StringText k us → Ws w₁ → Ws w₂ → ValueText t j → Ws w' → MembersText t' ms →
      MembersText (w ++ k ++ w₁ ++ chr ':' :: w₂ ++ t ++ w' ++ chr ',' :: t') ((us, j) :: ms)

end

def Text (text : Bytes) (j : Json) : Prop :=
  ∃ w t w', Ws w ∧ ValueText t j ∧ Ws w' ∧ text = w ++ t ++ w'

/-! ## What a text contains -/

namespace Json

mutual

/-- The numbers of a text, at every depth. -/
def numbers : Json → List Number
  | .number n => [n]
  | .array js => numbersElements js
  | .object ms => numbersMembers ms
  | _ => []

def numbersElements : List Json → List Number
  | [] => []
  | j :: js => numbers j ++ numbersElements js

def numbersMembers : List (List Nat × Json) → List Number
  | [] => []
  | (_, j) :: ms => numbers j ++ numbersMembers ms

end

mutual

/-- The keys of every object are pairwise distinct. -/
def DistinctKeys : Json → Prop
  | .array js => DistinctKeysElements js
  | .object ms => (ms.map Prod.fst).Nodup ∧ DistinctKeysMembers ms
  | _ => True

def DistinctKeysElements : List Json → Prop
  | [] => True
  | j :: js => DistinctKeys j ∧ DistinctKeysElements js

def DistinctKeysMembers : List (List Nat × Json) → Prop
  | [] => True
  | (_, j) :: ms => DistinctKeys j ∧ DistinctKeysMembers ms

end

end Json

end Rfc8259
