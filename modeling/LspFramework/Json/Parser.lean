import LspFramework.Lib.Loop
import LspFramework.Json.Literal

/-!
# The JSON parser

`Parser::parse` is a loop over an explicit stack of states, each with a pointer to the value
it fills in.  The text pointer `m_pos` is the list of the bytes from it to `m_end`, a `Value*`
is a path from `result`.  Everything that can go wrong is an `Exit`:

* `error`: the `ParseError` that `parse` returns;
* `throws`: an exception of the standard library that leaves `parse` (only `std::stod` throws);
* `fault`: `*m_pos` at the end of the text, a failed assertion, or a pointer into nothing.

`Parser.turn` is one round of the loop of `parse`.  Every round decreases `Parser.measure`
(`turn_decreases`), so `parse` is a total function, with the answer of the loop as its value.
-/

namespace Lsp.Json

open Chars

inductive Fault where
  | outOfBounds
  | assertFailed
  | danglingPointer
  deriving DecidableEq, Repr

inductive Exit where
  | error (e : ParseError)
  | throws (e : StdException)
  | fault (f : Fault)
  deriving DecidableEq, Repr

/-! ## Tokens

`size` is the length of the whole text, from which `textOffset` computes an offset. -/

def textOffset (size : Nat) (pos : Bytes) : Nat := size - pos.length

def failAt {α : Type} (message : Bytes) (offset : Nat) : Except Exit α :=
  .error (.error ⟨message, offset⟩)

/-- `*pos` -/
def charAt : Bytes → Except Exit UInt8
  | [] => .error (.fault .outOfBounds)
  | c :: _ => .ok c

/-- The text from one pointer to a later one. -/
def between (start stop : Bytes) : Bytes := start.take (start.length - stop.length)

def skipWhitespace (pos : Bytes) : Bytes := pos.dropWhile isspace

/-- The loop of `parseString`, from behind the opening quote to behind the closing one. -/
def scanString (size : Nat) : Bool → Bytes → Except Exit Bytes
  | _, [] => failAt (bytes "Unmatched '\"'") (textOffset size [])
  | hasEscape, c :: s =>
    if c = chr '\n' then failAt (bytes "Unmatched '\"'") (textOffset size (c :: s))
    else if !hasEscape && c == chr '"' then .ok s
    else scanString size (!hasEscape && c == chr '\\') s

def parseString (size : Nat) (pos : Bytes) : Except Exit (Bytes × Bytes) :=
  if pos.head? = some (chr '"') then do
    let pos' ← scanString size false pos.tail
    .ok (fromStringLiteral (between pos pos'), pos')
  else failAt (bytes "String expected") (textOffset size pos)

def isNumberChar (c : UInt8) : Bool := isalnum c || c == chr '-' || c == chr '.'

def isDecimalMark (c : UInt8) : Bool := c == chr '.' || c == chr 'e' || c == chr 'E'

/-- The value of a number token: `none` where `parseNumber` reports an invalid number. -/
def numberValue (token : Bytes) : Option (Except StdException Value) :=
  if token.any isDecimalMark then
    match Binary64.stod token with
    | .error e => some (.error e)
    | .ok (d, idx) => if idx < token.length then none else some (.ok (.decimal d))
  else
    match fromCharsInt (-2 ^ 63) (2 ^ 63 - 1) token with
    | (.ok i, len) =>
      if len ≠ token.length then none
      else if i < Int32.minValue.toInt ∨ Int32.maxValue.toInt < i then
        some (.ok (.decimal (Binary64.ofInt i)))
      else some (.ok (.integer (Int32.ofInt i)))
    | (.error _, _) => none

def parseNumber (size : Nat) (pos : Bytes) : Except Exit (Value × Bytes) :=
  let token := pos.takeWhile isNumberChar
  match numberValue token with
  | none => failAt (bytes "Invalid number value: '" ++ token ++ bytes "'") (textOffset size pos)
  | some (.error e) => .error (.throws e)
  | some (.ok v) => .ok (v, pos.dropWhile isNumberChar)

def parseIdentifier (size : Nat) (pos : Bytes) : Except Exit (Value × Bytes) :=
  let identifier := pos.takeWhile isalnum
  let pos' := pos.dropWhile isalnum
  if identifier = bytes "true" then .ok (.boolean true, pos')
  else if identifier = bytes "false" then .ok (.boolean false, pos')
  else if identifier = bytes "null" then .ok (.null, pos')
  else failAt (bytes "Unexpected '" ++ identifier ++ bytes "'") (textOffset size pos')

def parseSimpleValue (size : Nat) (pos : Bytes) : Except Exit (Value × Bytes) := do
  let c ← charAt pos
  if c = chr '"' then do
    let (s, pos') ← parseString size pos
    .ok (.string s, pos')
  else if isdigit c || c == chr '-' then parseNumber size pos
  else if isalpha c then parseIdentifier size pos
  else failAt (bytes "Unexpected token") (textOffset size pos)

/-! ## The state machine -/

inductive State where
  | value
  | object
  | objectKey
  | array
  deriving DecidableEq, Repr

structure StateStackEntry where
  context : State
  value : Value.Pointer
  deriving DecidableEq, Repr

/-- The top of the stack is the head of the list. -/
structure Parser where
  size : Nat
  pos : Bytes
  stateStack : List StateStackEntry
  result : Value

namespace Parser

def init (text : Bytes) : Parser := ⟨text.length, text, [⟨.value, []⟩], .null⟩

def check (b : Bool) : Except Exit Unit := if b then .ok () else .error (.fault .assertFailed)

def top (p : Parser) : Except Exit StateStackEntry :=
  match p.stateStack with
  | [] => .error (.fault .assertFailed)
  | e :: _ => .ok e

/-- The target of the pointer on top of the stack. -/
def currentValue (p : Parser) : Except Exit Value := do
  let e ← p.top
  match Value.deref? e.value p.result with
  | none => .error (.fault .danglingPointer)
  | some v => .ok v

def setCurrentValue (p : Parser) (v : Value) : Except Exit Parser := do
  let e ← p.top
  let _ ← p.currentValue
  .ok { p with result := Value.store e.value v p.result }

def currentObject (p : Parser) : Except Exit Object := do
  match ← p.currentValue with
  | .object ms => .ok ms
  | _ => .error (.fault .assertFailed)

def currentArray (p : Parser) : Except Exit Array := do
  match ← p.currentValue with
  | .array vs => .ok vs
  | _ => .error (.fault .assertFailed)

def pushState (p : Parser) (context : State) (value : Value.Pointer) : Parser :=
  { p with stateStack := ⟨context, value⟩ :: p.stateStack }

def popState (p : Parser) : Except Exit Parser :=
  match p.stateStack with
  | [] => .error (.fault .assertFailed)
  | _ :: k => .ok { p with stateStack := k }

def handleValue (p : Parser) : Except Exit Parser := do
  let e ← p.top
  check (e.context = .value)
  let c ← charAt p.pos
  if c = chr '{' then do
    let p ← { p with pos := p.pos.tail }.setCurrentValue (.object [])
    .ok (p.pushState .object e.value)
  else if c = chr '[' then do
    let p ← { p with pos := p.pos.tail }.setCurrentValue (.array [])
    .ok (p.pushState .array e.value)
  else do
    let (v, pos) ← parseSimpleValue p.size p.pos
    let p ← { p with pos := pos }.setCurrentValue v
    p.popState

/-- The comma before a member or an element, unless it is the first one of its container;
`close` is the closing bracket. -/
def separator (size : Nat) (empty : Bool) (close : UInt8) (pos : Bytes) : Except Exit Bytes :=
  if empty then .ok pos
  else do
    let c ← charAt pos
    if c ≠ chr ',' then failAt (bytes "Expected ','") (textOffset size pos)
    else if (skipWhitespace pos.tail).head? = some close then
      failAt (bytes "Trailing ','") (textOffset size pos)
    else .ok (skipWhitespace pos.tail)

def handleObject (p : Parser) : Except Exit Parser := do
  let e ← p.top
  check (e.context = .object)
  let c ← charAt p.pos
  if c = chr '}' then do
    let p ← { p with pos := p.pos.tail }.popState
    p.popState
  else do
    let ms ← p.currentObject
    let pos ← separator p.size ms.isEmpty (chr '}') p.pos
    .ok ({ p with pos := pos }.pushState .objectKey e.value)

def handleObjectKey (p : Parser) : Except Exit Parser := do
  let e ← p.top
  check (e.context = .objectKey)
  let ms ← p.currentObject
  let (key, pos) ← parseString p.size p.pos
  if Object.contains key ms then
    failAt (bytes "Duplicate key '" ++ key ++ bytes "'") (textOffset p.size p.pos)
  else
    let pos := skipWhitespace pos
    if pos.head? ≠ some (chr ':') then failAt (bytes "Expected ':'") (textOffset p.size pos)
    else do
      let p ← { p with pos := pos.tail }.setCurrentValue (.object (Object.index key ms))
      let p ← p.popState
      .ok (p.pushState .value (e.value ++ [Value.PathStep.key key]))

def handleArray (p : Parser) : Except Exit Parser := do
  let e ← p.top
  check (e.context = .array)
  let c ← charAt p.pos
  if c = chr ']' then do
    let p ← { p with pos := p.pos.tail }.popState
    p.popState
  else do
    let vs ← p.currentArray
    let pos ← separator p.size vs.isEmpty (chr ']') p.pos
    let p ← { p with pos := pos }.setCurrentValue (.array (vs ++ [Value.null]))
    .ok (p.pushState .value (e.value ++ [Value.PathStep.index vs.length]))

def handle (p : Parser) : Except Exit Parser := do
  let e ← p.top
  match e.context with
  | .value => p.handleValue
  | .object => p.handleObject
  | .objectKey => p.handleObjectKey
  | .array => p.handleArray

/-- One round of the loop of `parse`; behind the loop, the check for trailing characters. -/
def turn (p : Parser) : Loop.Turn Parser (Except Exit Value) :=
  let p := { p with pos := skipWhitespace p.pos }
  if p.stateStack = [] then
    if p.pos = [] then .done (.ok p.result)
    else .done (failAt (bytes "Trailing characters in json") (textOffset p.size p.pos))
  else if p.pos = [] then
    .done (failAt (bytes "Unexpected end of input") (textOffset p.size p.pos))
  else
    match p.handle with
    | .ok p' => .next p'
    | .error e => .done (.error e)

def waits (stack : List StateStackEntry) : Nat :=
  match stack with
  | ⟨.object, _⟩ :: _ => 1
  | ⟨.array, _⟩ :: _ => 1
  | _ => 0

/-- A round reads a byte, or leaves a container that waits for its next member. -/
def measure (p : Parser) : Nat := 2 * p.pos.length + waits p.stateStack

/-! ## Termination -/

theorem bind_eq_ok {α β : Type} {x : Except Exit α} {f : α → Except Exit β} {b : β} :
    (x >>= f) = .ok b ↔ ∃ a, x = .ok a ∧ f a = .ok b := by
  cases x <;> simp [bind, Except.bind]

theorem failAt_ne_ok {α : Type} (message : Bytes) (offset : Nat) (a : α) :
    failAt message offset ≠ .ok a := by
  simp [failAt]

theorem scanString_length {size : Nat} {b : Bool} {s s' : Bytes} (h : scanString size b s = .ok s') :
    s'.length < s.length := by
  induction s generalizing b with
  | nil => simp [scanString, failAt] at h
  | cons c s ih =>
    simp only [scanString] at h
    split at h
    · exact absurd h (failAt_ne_ok _ _ _)
    · split at h
      · cases h
        simp
      · have := ih h
        simp only [List.length_cons]
        omega

theorem parseString_length {size : Nat} {pos k pos' : Bytes} (h : parseString size pos = .ok (k, pos')) :
    pos'.length < pos.length := by
  unfold parseString at h
  split at h
  · simp only [bind_eq_ok] at h
    obtain ⟨r, hr, h⟩ := h
    cases h
    have := scanString_length hr
    rw [List.length_tail] at this
    omega
  · exact absurd h (failAt_ne_ok _ _ _)

theorem dropWhile_length_lt {p : UInt8 → Bool} {c : UInt8} {s : Bytes} (h : p c = true) :
    ((c :: s).dropWhile p).length < (c :: s).length := by
  rw [List.dropWhile_cons_of_pos h, List.length_cons]
  have := (List.dropWhile_suffix p (l := s)).length_le
  omega

theorem parseSimpleValue_length {size : Nat} {pos pos' : Bytes} {v : Value}
    (h : parseSimpleValue size pos = .ok (v, pos')) : pos'.length < pos.length := by
  cases pos with
  | nil => simp [parseSimpleValue, charAt, bind, Except.bind] at h
  | cons c s =>
    simp only [parseSimpleValue, charAt, bind_eq_ok, Except.ok.injEq, exists_eq_left'] at h
    split at h
    · simp only [bind_eq_ok] at h
      obtain ⟨⟨k, r⟩, hk, h⟩ := h
      cases h
      exact parseString_length hk
    · split at h
      · next hc =>
        have hnum : isNumberChar c = true := by
          rcases Bool.or_eq_true _ _ |>.mp hc with hd | hm
          · simp [isNumberChar, isalnum_of_isdigit hd]
          · rw [isNumberChar, hm, Bool.or_true, Bool.true_or]
        unfold parseNumber at h
        simp only [] at h
        split at h
        · exact absurd h (failAt_ne_ok _ _ _)
        · cases h
        · cases h
          exact dropWhile_length_lt hnum
      · split at h
        · next ha =>
          have hid : isalnum c = true := by simp [isalnum, ha]
          unfold parseIdentifier at h
          simp only [] at h
          split at h
          · cases h
            exact dropWhile_length_lt hid
          · split at h
            · cases h
              exact dropWhile_length_lt hid
            · split at h
              · cases h
                exact dropWhile_length_lt hid
              · exact absurd h (failAt_ne_ok _ _ _)
        · exact absurd h (failAt_ne_ok _ _ _)

theorem skipWhitespace_length (pos : Bytes) : (skipWhitespace pos).length ≤ pos.length :=
  (List.dropWhile_suffix isspace).length_le

theorem charAt_tail_length {pos : Bytes} {c : UInt8} (h : charAt pos = .ok c) :
    pos.tail.length < pos.length := by
  cases pos with
  | nil => simp [charAt] at h
  | cons c s => simp

theorem separator_length {size : Nat} {empty : Bool} {close : UInt8} {pos pos' : Bytes}
    (h : separator size empty close pos = .ok pos') : pos'.length ≤ pos.length := by
  unfold separator at h
  split at h
  · cases h
    exact Nat.le_refl _
  · simp only [bind_eq_ok] at h
    obtain ⟨c, hc, h⟩ := h
    split at h
    · exact absurd h (failAt_ne_ok _ _ _)
    · split at h
      · exact absurd h (failAt_ne_ok _ _ _)
      · cases h
        have h₁ := charAt_tail_length hc
        have h₂ := skipWhitespace_length pos.tail
        omega

theorem setCurrentValue_ok {p p' : Parser} {v : Value} (h : p.setCurrentValue v = .ok p') :
    p'.pos = p.pos ∧ p'.stateStack = p.stateStack := by
  simp only [setCurrentValue, bind_eq_ok] at h
  obtain ⟨e, -, w, -, h⟩ := h
  cases h
  exact ⟨rfl, rfl⟩

theorem popState_ok {p p' : Parser} (h : p.popState = .ok p') : p'.pos = p.pos := by
  unfold popState at h
  split at h
  · cases h
  · cases h
    rfl

theorem waits_le (stack : List StateStackEntry) : waits stack ≤ 1 := by
  unfold waits
  split <;> omega

theorem measure_lt_of_pos {p p' : Parser} (h : p'.pos.length < p.pos.length) :
    p'.measure < p.measure := by
  have := waits_le p'.stateStack
  unfold measure
  omega

theorem handleValue_decreases {p p' : Parser} (h : p.handleValue = .ok p') :
    p'.measure < p.measure := by
  apply measure_lt_of_pos
  simp only [handleValue, bind_eq_ok] at h
  obtain ⟨e, -, -, -, c, hc, h⟩ := h
  have htail := charAt_tail_length hc
  split at h
  · simp only [bind_eq_ok] at h
    obtain ⟨p₁, h₁, h⟩ := h
    cases h
    rw [show (p₁.pushState .object e.value).pos = p₁.pos from rfl, (setCurrentValue_ok h₁).1]
    exact htail
  · split at h
    · simp only [bind_eq_ok] at h
      obtain ⟨p₁, h₁, h⟩ := h
      cases h
      rw [show (p₁.pushState .array e.value).pos = p₁.pos from rfl, (setCurrentValue_ok h₁).1]
      exact htail
    · simp only [bind_eq_ok] at h
      obtain ⟨⟨v, pos⟩, hv, p₁, h₁, h⟩ := h
      rw [popState_ok h, (setCurrentValue_ok h₁).1]
      exact parseSimpleValue_length hv

theorem handleObjectKey_decreases {p p' : Parser} (h : p.handleObjectKey = .ok p') :
    p'.measure < p.measure := by
  apply measure_lt_of_pos
  simp only [handleObjectKey, bind_eq_ok] at h
  obtain ⟨e, -, -, -, ms, -, ⟨key, pos⟩, hkey, h⟩ := h
  split at h
  · exact absurd h (failAt_ne_ok _ _ _)
  · split at h
    · exact absurd h (failAt_ne_ok _ _ _)
    · simp only [bind_eq_ok] at h
      obtain ⟨p₁, h₁, p₂, h₂, h⟩ := h
      cases h
      rw [show (p₂.pushState .value (e.value ++ [.key key])).pos = p₂.pos from rfl, popState_ok h₂,
        (setCurrentValue_ok h₁).1]
      have h₃ := parseString_length hkey
      have h₄ := skipWhitespace_length pos
      simp only [List.length_tail]
      omega

/-- A container either reads a byte or goes on to its next member without waiting. -/
theorem measure_lt_of_waits {p p' : Parser} (h : p'.pos.length ≤ p.pos.length)
    (hp : waits p.stateStack = 1) (hp' : waits p'.stateStack = 0) : p'.measure < p.measure := by
  unfold measure
  omega

theorem top_ok {p : Parser} {e : StateStackEntry} (h : p.top = .ok e) : ∃ k, p.stateStack = e :: k := by
  unfold top at h
  split at h
  · cases h
  · next k hk =>
    cases h
    exact ⟨k, hk⟩

theorem check_ok {b : Bool} {u : Unit} (h : check b = .ok u) : b = true := by
  unfold check at h
  split at h
  · assumption
  · cases h

theorem waits_eq_one {p : Parser} {e : StateStackEntry} (ht : p.top = .ok e)
    (hc : e.context = .object ∨ e.context = .array) : waits p.stateStack = 1 := by
  obtain ⟨k, hk⟩ := top_ok ht
  obtain ⟨context, ptr⟩ := e
  rcases hc with rfl | rfl <;> simp [waits, hk]

theorem handleObject_decreases {p p' : Parser} (h : p.handleObject = .ok p') :
    p'.measure < p.measure := by
  simp only [handleObject, bind_eq_ok] at h
  obtain ⟨e, he, _, hcheck, c, hc, h⟩ := h
  split at h
  · apply measure_lt_of_pos
    simp only [bind_eq_ok] at h
    obtain ⟨p₁, h₁, h⟩ := h
    rw [popState_ok h, popState_ok h₁]
    exact charAt_tail_length hc
  · simp only [bind_eq_ok] at h
    obtain ⟨ms, -, pos, hpos, h⟩ := h
    cases h
    exact measure_lt_of_waits (separator_length hpos)
      (waits_eq_one he (.inl (by simpa using check_ok hcheck))) rfl

theorem handleArray_decreases {p p' : Parser} (h : p.handleArray = .ok p') :
    p'.measure < p.measure := by
  simp only [handleArray, bind_eq_ok] at h
  obtain ⟨e, he, _, hcheck, c, hc, h⟩ := h
  split at h
  · apply measure_lt_of_pos
    simp only [bind_eq_ok] at h
    obtain ⟨p₁, h₁, h⟩ := h
    rw [popState_ok h, popState_ok h₁]
    exact charAt_tail_length hc
  · simp only [bind_eq_ok] at h
    obtain ⟨vs, -, pos, hpos, p₁, h₁, h⟩ := h
    cases h
    have hpos₁ : p₁.pos = pos := (setCurrentValue_ok h₁).1
    refine measure_lt_of_waits ?_ (waits_eq_one he (.inr (by simpa using check_ok hcheck))) rfl
    rw [show (p₁.pushState .value (e.value ++ [.index vs.length])).pos = p₁.pos from rfl, hpos₁]
    exact separator_length hpos

theorem handle_decreases {p p' : Parser} (h : p.handle = .ok p') : p'.measure < p.measure := by
  simp only [handle, bind_eq_ok] at h
  obtain ⟨e, -, h⟩ := h
  split at h
  · exact handleValue_decreases h
  · exact handleObject_decreases h
  · exact handleObjectKey_decreases h
  · exact handleArray_decreases h

/-- **Every round of the loop of `parse` comes closer to its end.** -/
theorem turn_decreases (p p' : Parser) (h : p.turn = .next p') : p'.measure < p.measure := by
  unfold turn at h
  simp only [] at h
  split at h
  · split at h <;> cases h
  · split at h
    · cases h
    · split at h
      · next p₁ hp₁ =>
        cases h
        have h₁ := handle_decreases hp₁
        have h₂ := skipWhitespace_length p.pos
        unfold measure at h₁ ⊢
        simp only at h₁
        omega
      · cases h

end Parser

/-- `json::parse`: the value, or how the parser leaves without one. -/
def parse (text : Bytes) : Except Exit Value :=
  Loop.complete Parser.turn Parser.measure Parser.turn_decreases (Parser.init text)

theorem parse_eq_iff (text : Bytes) (r : Except Exit Value) :
    parse text = r ↔ Loop.Ends Parser.turn (Parser.init text) r :=
  Loop.complete_eq_iff _ _ _ r

end Lsp.Json
