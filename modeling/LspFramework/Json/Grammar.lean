import LspFramework.Lib.Rfc8259
import LspFramework.Json.Parser

/-!
# The grammar of the JSON parser

`Text text v`: the whole of `text` is a value `v` with white space around it.  The scalar
tokens are those the scanners of the parser delimit (`StringToken`, `NumberToken` and the three
words), the rest is the usual grammar: one comma between members, none at the end, and the keys
of an object distinct after unescaping.

`TextTraps text`: the text is in this grammar up to a place where a value is due, and there
stands a number token that `std::stod` throws at.
-/

namespace Lsp.Json

open Chars

/-! ## Tokens -/

def Ws (w : Bytes) : Prop := ∀ c ∈ w, isspace c = true

instance (w : Bytes) : Decidable (Ws w) := List.decidableBAll _ w

/-- `std::isspace` takes two more bytes for white space than the RFC. -/
theorem ws_of_rfc {w : Bytes} (h : Rfc8259.Ws w) : Ws w := by
  intro c hc
  rcases h c hc with rfl | rfl | rfl | rfl <;> decide

/-- The inside of a string token: `\` takes the next byte with it, and no byte is a newline. -/
inductive StringBody : Bytes → Prop
  | nil : StringBody []
  | plain {c : UInt8} {s : Bytes} : c ≠ chr '"' → c ≠ chr '\\' → c ≠ chr '\n' → StringBody s →
      StringBody (c :: s)
  | escape {c : UInt8} {s : Bytes} : c ≠ chr '\n' → StringBody s → StringBody (chr '\\' :: c :: s)

def StringToken (t s : Bytes) : Prop :=
  ∃ body, StringBody body ∧ t = chr '"' :: body ++ [chr '"'] ∧ s = fromStringLiteral t

/-- A run of number characters with what `parseNumber` makes of it. -/
structure NumberToken (t : Bytes) (r : Except StdException Value) : Prop where
  head : ∃ c s, t = c :: s ∧ (isdigit c || c == chr '-') = true
  chars : ∀ c ∈ t, isNumberChar c = true
  value : numberValue t = some r

inductive Scalar : Bytes → Value → Prop
  | string {t s : Bytes} : StringToken t s → Scalar t (.string s)
  | number {t : Bytes} {v : Value} : NumberToken t (.ok v) → Scalar t v
  | true_ : Scalar (bytes "true") (.boolean true)
  | false_ : Scalar (bytes "false") (.boolean false)
  | null : Scalar (bytes "null") .null

/-- What stands before an element: white space, and a comma unless it is the first one. -/
inductive Separator : Bool → Bytes → Prop
  | first {w : Bytes} : Ws w → Separator true w
  | comma {w₁ w₂ : Bytes} : Ws w₁ → Ws w₂ → Separator false (w₁ ++ chr ',' :: w₂)

/-! ## Values -/

mutual

inductive Derives : Bytes → Value → Prop
  | scalar {t : Bytes} {v : Value} : Scalar t v → Derives t v
  | array {t : Bytes} {vs : Array} : Elements true t vs → Derives (chr '[' :: t) (.array vs)
  | object {t : Bytes} {ms : Object} : Members true t ms → (ms.map Prod.fst).Nodup →
      Derives (chr '{' :: t) (.object ms)

/-- The elements of an array up to its closing bracket; the flag says that none came before. -/
inductive Elements : Bool → Bytes → Array → Prop
  | close {first : Bool} {w : Bytes} : Ws w → Elements first (w ++ [chr ']']) []
  | item {first : Bool} {s t t' : Bytes} {v : Value} {vs : Array} : Separator first s → Derives t v →
      Elements false t' vs → Elements first (s ++ t ++ t') (v :: vs)

/-- The members of an object up to its closing bracket. -/
inductive Members : Bool → Bytes → Object → Prop
  | close {first : Bool} {w : Bytes} : Ws w → Members first (w ++ [chr '}']) []
  | item {first : Bool} {s k w₁ w₂ t t' key : Bytes} {v : Value} {ms : Object} : Separator first s →
      StringToken k key → Ws w₁ → Ws w₂ → Derives t v → Members false t' ms →
      Members first (s ++ k ++ w₁ ++ chr ':' :: w₂ ++ t ++ t') ((key, v) :: ms)

end

def Text (text : Bytes) (v : Value) : Prop :=
  ∃ w t w', Ws w ∧ Derives t v ∧ Ws w' ∧ text = w ++ t ++ w'

/-! ## Number tokens that throw -/

/-- The next byte, if there is one, does not continue a number or a word. -/
def Follows (r : Bytes) : Prop := ∀ c, r.head? = some c → isNumberChar c = false

mutual

/-- The text begins with a value up to a number token that `std::stod` throws at. -/
inductive Traps : Bytes → Prop
  | number {t r : Bytes} {e : StdException} : NumberToken t (.error e) → Follows r → Traps (t ++ r)
  | array {t : Bytes} : TrapsElements true t → Traps (chr '[' :: t)
  | object {t : Bytes} : TrapsMembers true [] t → Traps (chr '{' :: t)

inductive TrapsElements : Bool → Bytes → Prop
  | here {first : Bool} {s t : Bytes} : Separator first s → Traps t → TrapsElements first (s ++ t)
  | later {first : Bool} {s t t' : Bytes} {v : Value} : Separator first s → Derives t v →
      TrapsElements false t' → TrapsElements first (s ++ t ++ t')

/-- The same behind members with the given keys. -/
inductive TrapsMembers : Bool → List Bytes → Bytes → Prop
  | here {first : Bool} {keys : List Bytes} {s k w₁ w₂ t key : Bytes} : Separator first s →
      StringToken k key → key ∉ keys → Ws w₁ → Ws w₂ → Traps t →
      TrapsMembers first keys (s ++ k ++ w₁ ++ chr ':' :: w₂ ++ t)
  | later {first : Bool} {keys : List Bytes} {s k w₁ w₂ t t' key : Bytes} {v : Value} :
      Separator first s → StringToken k key → key ∉ keys → Ws w₁ → Ws w₂ → Derives t v →
      TrapsMembers false (keys ++ [key]) t' →
      TrapsMembers first keys (s ++ k ++ w₁ ++ chr ':' :: w₂ ++ t ++ t')

end

def TextTraps (text : Bytes) : Prop := ∃ w t, Ws w ∧ Traps t ∧ text = w ++ t

end Lsp.Json
