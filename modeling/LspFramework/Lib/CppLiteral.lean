import Mathlib.Data.List.DropRight
import LspFramework.Lib.Chars
import LspFramework.Lib.Unicode

/-!
# Literals of C++

What a compiler makes of the initializers of an array: ordinary string literals in UTF-8, decimal integer
literals with or without a minus sign, and `true` and `false`, separated by commas.  `none` is a text that
is ill-formed, or of a kind not treated here: prefixes and suffixes, other bases, nested braces, comments.

* `stringLoop`: the characters of a string literal up to the closing quote, and what stands behind it.
* `Reads text l`: wherever the text stands alone it is the literal `l`.

    Reads text l for each text → the list of them, separated by commas, is ls    (initializerList_separated)
-/

namespace CppLiteral

open Chars

/-! ## Algorithm -/

/-- A value of a literal; the characters of a string are those before its terminating NUL. -/
inductive Literal where
  | string (s : Bytes)
  | integer (i : Int)
  | boolean (b : Bool)
  deriving DecidableEq, Repr

def simpleEscape (c : UInt8) : Option UInt8 :=
  match c with
  | chr '\'' => some (chr '\'')
  | chr '"' => some (chr '"')
  | chr '?' => some (chr '?')
  | chr '\\' => some (chr '\\')
  | chr 'a' => some 7
  | chr 'b' => some 8
  | chr 'f' => some 12
  | chr 'n' => some 10
  | chr 'r' => some 13
  | chr 't' => some 9
  | chr 'v' => some 11
  | _ => none

/-- A universal character name with that many digits, before `s`. -/
def universal (digits : Nat) (s : Bytes) : Option (Bytes × Nat) :=
  match fromChars 16 0x10FFFF (s.take digits) with
  | (.ok n, len) =>
    if len = digits ∧ ¬ (0xD800 ≤ n ∧ n < 0xE000) then some (Unicode.utf8 n, digits + 1) else none
  | _ => none

/-- The escape sequence behind a backslash: its characters, and its length. -/
def escapeSequence : Bytes → Option (Bytes × Nat)
  | [] => none
  | c :: s =>
    match simpleEscape c with
    | some b => some ([b], 1)
    | none =>
      if c = chr 'u' then universal 4 s
      else if c = chr 'U' then universal 8 s
      else if c = chr 'x' then
        match fromChars 16 255 s with
        | (.ok n, len) => some ([UInt8.ofNat n], len + 1)
        | _ => none
      else
        match fromChars 8 255 ((c :: s).take 3) with
        | (.ok n, len) => some ([UInt8.ofNat n], len)
        | _ => none

/-- The number counts the bytes of an escape sequence that are still to be passed over. -/
def stringLoop : Nat → Bytes → Option (Bytes × Bytes)
  | _, [] => none
  | skip + 1, _ :: s => stringLoop skip s
  | 0, c :: s =>
    if c = chr '"' then some ([], s)
    else if c = chr '\n' then none
    else if c = chr '\\' then
      (escapeSequence s).bind fun e => (stringLoop e.2 s).map fun r => (e.1 ++ r.1, r.2)
    else (stringLoop 0 s).map fun r => (c :: r.1, r.2)

/-- A decimal literal is an `int`, a `long` or a `long long`, whichever is the first to hold it. -/
def decimal (s : Bytes) : Option (Nat × Bytes) :=
  let ds := s.takeWhile isdigit
  if ds = [] ∨ (ds.head? = some (chr '0') ∧ ds ≠ [chr '0']) ∨ 2 ^ 63 ≤ valueOf 10 ds then none
  else some (valueOf 10 ds, s.dropWhile isdigit)

def keyword (s : Bytes) : Option (Bool × Bytes) :=
  let word := s.takeWhile isalnum
  if word = bytes "true" then some (true, s.dropWhile isalnum)
  else if word = bytes "false" then some (false, s.dropWhile isalnum)
  else none

/-- A byte with which a token that begins as a literal goes on. -/
def goesOn (rest : Bytes) : Bool :=
  rest.head?.any fun c => isalnum c || c == chr '_' || c == chr '.' || c == chr '\'' || 0x80 ≤ c

/-- The literal at the front, and what stands behind it. -/
def token (text : Bytes) : Option (Literal × Bytes) :=
  match text with
  | [] => none
  | c :: s =>
    if c = chr '"' then (stringLoop 0 s).map fun r => (.string r.1, r.2)
    else if c = chr '-' then (decimal s).map fun r => (.integer (-r.1), r.2)
    else if isdigit c then (decimal text).map fun r => (.integer r.1, r.2)
    else (keyword text).map fun r => (.boolean r.1, r.2)

def literal (text : Bytes) : Option (Literal × Bytes) := (token text).filter fun r => !goesOn r.2

/-- The initializers between the braces; the last one may have a comma behind it. -/
def initializers : Nat → Bytes → Option (List Literal)
  | 0, _ => none
  | fuel + 1, text =>
    let text := text.dropWhile isspace
    if text = [] then some []
    else
      (literal text).bind fun r =>
        match r.2.dropWhile isspace with
        | [] => some [r.1]
        | c :: rest => if c = chr ',' then (initializers fuel rest).map (r.1 :: ·) else none

def initializerList (text : Bytes) : Option (List Literal) := initializers (text.length + 1) text

/-- The text between the first opening brace and the last closing one. -/
def braces (text : Bytes) : Bytes := ((text.dropWhile (· ≠ chr '{')).tail.rdropWhile (· ≠ chr '}')).dropLast

/-! ## Lemmas -/

/-- Where it stands alone the text is this literal. -/
structure Reads (text : Bytes) (l : Literal) : Prop where
  head : ∃ c s, text = c :: s ∧ isspace c = false
  literal : ∀ rest, goesOn rest = false → literal (text ++ rest) = some (l, rest)

theorem literal_of_token {text rest : Bytes} {l : Literal} (h : token text = some (l, rest))
    (hrest : goesOn rest = false) : literal text = some (l, rest) := by
  rw [literal, h, Option.filter_some, hrest]
  rfl

section Strings

variable {c : UInt8} {s : Bytes}

theorem stringLoop_quote : stringLoop 0 (chr '"' :: s) = some ([], s) := by
  rw [stringLoop, if_pos rfl]

theorem stringLoop_plain (hquote : c ≠ chr '"') (hnewline : c ≠ chr '\n') (hbackslash : c ≠ chr '\\') :
    stringLoop 0 (c :: s) = (stringLoop 0 s).map fun r => (c :: r.1, r.2) := by
  rw [stringLoop, if_neg hquote, if_neg hnewline, if_neg hbackslash]

theorem stringLoop_skip (t : Bytes) : stringLoop t.length (t ++ s) = stringLoop 0 s := by
  induction t with
  | nil => rfl
  | cons c t ih => rw [List.length_cons, List.cons_append, stringLoop, ih]

/-- **An escape sequence stands for its characters.** -/
theorem stringLoop_escape {t b : Bytes} (h : escapeSequence (t ++ s) = some (b, t.length)) :
    stringLoop 0 (chr '\\' :: (t ++ s)) = (stringLoop 0 s).map fun r => (b ++ r.1, r.2) := by
  have hquote : chr '\\' ≠ chr '"' := by decide
  have hnewline : chr '\\' ≠ chr '\n' := by decide
  rw [stringLoop, if_neg hquote, if_neg hnewline, if_pos rfl, h, Option.bind_some, stringLoop_skip]

theorem escapeSequence_simple {b : UInt8} (h : simpleEscape c = some b) :
    escapeSequence ([c] ++ s) = some ([b], 1) := by
  rw [List.singleton_append, escapeSequence, h]

/-- A universal character name is read off the front. -/
theorem universal_append {digits : Nat} {t : Bytes} (h : t.length = digits) :
    universal digits (t ++ s) = universal digits t := by
  subst h
  rw [universal, universal, List.take_left, List.take_length]

theorem escapeSequence_universal {t : Bytes} (h : t.length = 4) :
    escapeSequence ((chr 'u' :: t) ++ s) = universal 4 t := by
  have hsimple : simpleEscape (chr 'u') = none := by decide
  rw [List.cons_append, escapeSequence, hsimple]
  exact (if_pos rfl).trans (universal_append h)

theorem reads_string {body value : Bytes}
    (h : ∀ rest, stringLoop 0 (body ++ chr '"' :: rest) = some (value, rest)) :
    Reads (chr '"' :: body ++ [chr '"']) (.string value) where
  head := ⟨_, _, rfl, by decide⟩
  literal rest hrest := by
    have htoken : token (chr '"' :: (body ++ [chr '"'] ++ rest)) = some (.string value, rest) := by
      rw [token, if_pos rfl, List.append_assoc, List.singleton_append, h]
      rfl
    exact literal_of_token htoken hrest

end Strings

/-- A word is not followed by one of its letters, a number not by one of its digits. -/
theorem isalnum_of_goesOn {rest : Bytes} (h : goesOn rest = false) (c : UInt8) (hc : rest.head? = some c) :
    isalnum c = false := by
  unfold goesOn at h
  rw [hc, Option.any_some] at h
  cases halnum : isalnum c with
  | false => rfl
  | true =>
    rw [halnum] at h
    cases h

theorem isdigit_of_goesOn {rest : Bytes} (h : goesOn rest = false) (c : UInt8) (hc : rest.head? = some c) :
    isdigit c = false := by
  have halnum := isalnum_of_goesOn h c hc
  cases hdigit : isdigit c with
  | false => rfl
  | true =>
    rw [isalnum_of_isdigit hdigit] at halnum
    cases halnum

theorem decimal_natText {n : Nat} (hn : n < 2 ^ 63) {rest : Bytes} (hrest : goesOn rest = false) :
    decimal (natText n ++ rest) = some (n, rest) := by
  have hdigits : ∀ c ∈ natText n, isdigit c = true := fun c hc => isdigit_of_mem_natText hc
  have hstop := isdigit_of_goesOn hrest
  unfold decimal
  rw [takeWhile_append_stop hdigits hstop, dropWhile_append_stop hdigits hstop]
  dsimp only
  rw [valueOf_natText, if_neg]
  rintro (hnil | ⟨hzero, hne⟩ | hlarge)
  · exact natText_ne_nil n hnil
  · exact hne (natText_zero hzero)
  · omega

theorem reads_intText {i : Int} (hi : i.natAbs < 2 ^ 63) : Reads (intText i) (.integer i) := by
  obtain ⟨c, s, hcs⟩ := List.exists_cons_of_ne_nil (natText_ne_nil i.natAbs)
  have hdigit : isdigit c = true := isdigit_of_mem_natText (hcs ▸ List.mem_cons_self)
  by_cases hneg : i < 0
  · have htext : intText i = chr '-' :: natText i.natAbs := if_pos hneg
    rw [htext]
    refine ⟨⟨_, _, rfl, by decide⟩, fun rest hrest => literal_of_token ?_ hrest⟩
    have hquote : chr '-' ≠ chr '"' := by decide
    rw [List.cons_append, token, if_neg hquote, if_pos rfl, decimal_natText hi hrest, Option.map_some]
    have habs : -(i.natAbs : Int) = i := by omega
    rw [habs]
  · have htext : intText i = natText i.natAbs := if_neg hneg
    have hplain : ∀ c : UInt8, isdigit c = true → isspace c = false ∧ c ≠ chr '"' ∧ c ≠ chr '-' :=
      forall_byte (by decide +kernel)
    obtain ⟨hspace, hquote, hminus⟩ := hplain c hdigit
    rw [htext]
    refine ⟨⟨c, s, hcs, hspace⟩, fun rest hrest => literal_of_token ?_ hrest⟩
    have hdecimal := decimal_natText hi hrest
    rw [hcs, List.cons_append] at hdecimal ⊢
    rw [token, if_neg hquote, if_neg hminus, if_pos hdigit, hdecimal, Option.map_some]
    have habs : (i.natAbs : Int) = i := by omega
    rw [habs]

theorem keyword_append (b : Bool) {rest : Bytes} (hrest : goesOn rest = false) :
    keyword ((if b then bytes "true" else bytes "false") ++ rest) = some (b, rest) := by
  have hword : ∀ b : Bool, ∀ c ∈ (if b then bytes "true" else bytes "false"), isalnum c = true := by
    decide +kernel
  have hstop := isalnum_of_goesOn hrest
  unfold keyword
  rw [takeWhile_append_stop (hword b) hstop, dropWhile_append_stop (hword b) hstop]
  cases b <;> rfl

theorem reads_boolean (b : Bool) : Reads (if b then bytes "true" else bytes "false") (.boolean b) where
  head := by cases b <;> exact ⟨_, _, rfl, by decide⟩
  literal rest hrest := by
    apply literal_of_token ?_ hrest
    have htoken : token ((if b then bytes "true" else bytes "false") ++ rest) =
        (keyword ((if b then bytes "true" else bytes "false") ++ rest)).map fun r => (.boolean r.1, r.2) := by
      cases b <;> rfl
    rw [htoken, keyword_append b hrest]
    rfl

section Initializers

variable {text w : Bytes} {l : Literal}

theorem dropWhile_reads (h : Reads text l) (hw : ∀ c ∈ w, isspace c = true) (rest : Bytes) :
    (w ++ (text ++ rest)).dropWhile isspace = text ++ rest := by
  obtain ⟨c, s, rfl, hc⟩ := h.head
  rw [List.dropWhile_append_of_pos hw, List.cons_append, List.dropWhile_cons_of_neg (by simp [hc])]

theorem Reads.ne_nil (h : Reads text l) (rest : Bytes) : text ++ rest ≠ [] := by
  obtain ⟨c, s, rfl, -⟩ := h.head
  exact List.cons_ne_nil _ _

theorem goesOn_of_isspace {rest : Bytes} (h : ∀ c ∈ rest, isspace c = true) : goesOn rest = false := by
  cases rest with
  | nil => rfl
  | cons c rest =>
    have hplain : ∀ c : UInt8, isspace c = true → goesOn [c] = false := forall_byte (by decide +kernel)
    exact hplain c (h c List.mem_cons_self)

/-- The last initializer. -/
theorem initializers_last (h : Reads text l) {w' : Bytes} (hw : ∀ c ∈ w, isspace c = true)
    (hw' : ∀ c ∈ w', isspace c = true) (fuel : Nat) : initializers (fuel + 1) (w ++ (text ++ w')) = some [l] := by
  have hdrop : w'.dropWhile isspace = [] := List.dropWhile_eq_nil_iff.mpr hw'
  rw [initializers, dropWhile_reads h hw, if_neg (h.ne_nil _), h.literal _ (goesOn_of_isspace hw'),
    Option.bind_some]
  dsimp only
  rw [hdrop]

/-- An initializer before others. -/
theorem initializers_cons (h : Reads text l) (hw : ∀ c ∈ w, isspace c = true) (fuel : Nat) (rest : Bytes) :
    initializers (fuel + 1) (w ++ (text ++ chr ',' :: rest)) = (initializers fuel rest).map (l :: ·) := by
  have hcomma : ¬ isspace (chr ',') = true := by decide
  have hends : goesOn (chr ',' :: rest) = false := by rfl
  rw [initializers, dropWhile_reads h hw, if_neg (h.ne_nil _), h.literal _ hends, Option.bind_some]
  dsimp only
  rw [List.dropWhile_cons_of_neg hcomma]
  exact if_pos rfl

theorem initializers_separated (h : Reads text l) {texts : List Bytes} {ls : List Literal}
    (hs : List.Forall₂ Reads texts ls) {sep w' : Bytes} (hw : ∀ c ∈ w, isspace c = true)
    (hsep : ∀ c ∈ sep, isspace c = true) (hw' : ∀ c ∈ w', isspace c = true) {fuel : Nat}
    (hfuel : texts.length < fuel) :
    initializers fuel (w ++ (text ++ (texts.flatMap (fun t => chr ',' :: (sep ++ t)) ++ w'))) =
      some (l :: ls) := by
  obtain ⟨fuel, rfl⟩ : ∃ n, fuel = n + 1 := ⟨fuel - 1, by omega⟩
  induction hs generalizing text l w fuel with
  | nil => exact initializers_last h hw hw' fuel
  | @cons t l' texts ls ht _ ih =>
    rw [List.length_cons] at hfuel
    obtain ⟨fuel, rfl⟩ : ∃ n, fuel = n + 1 := ⟨fuel - 1, by omega⟩
    rw [List.flatMap_cons, List.cons_append, List.cons_append, initializers_cons h hw, List.append_assoc,
      List.append_assoc, ih ht hsep fuel (by omega)]
    rfl

/-- **Literals with commas between them are the initializers.** -/
theorem initializerList_separated (h : Reads text l) {texts : List Bytes} {ls : List Literal}
    (hs : List.Forall₂ Reads texts ls) {sep w' : Bytes} (hw : ∀ c ∈ w, isspace c = true)
    (hsep : ∀ c ∈ sep, isspace c = true) (hw' : ∀ c ∈ w', isspace c = true) :
    initializerList (w ++ (text ++ (texts.flatMap (fun t => chr ',' :: (sep ++ t)) ++ w'))) = some (l :: ls) := by
  have hlength : texts.length ≤ (texts.flatMap fun t => chr ',' :: (sep ++ t)).length := by
    clear hs
    induction texts with
    | nil => exact Nat.le_refl _
    | cons t texts ih =>
      rw [List.flatMap_cons, List.length_append, List.length_cons, List.length_cons]
      omega
  refine initializers_separated h hs hw hsep hw' ?_
  simp only [List.length_append]
  omega

end Initializers

/-- The text between braces, of which there is none before and none behind. -/
theorem braces_eq {before inside after : Bytes} (hbefore : chr '{' ∉ before) (hafter : chr '}' ∉ after) :
    braces (before ++ chr '{' :: (inside ++ chr '}' :: after)) = inside := by
  have hopen : (before ++ chr '{' :: (inside ++ chr '}' :: after)).dropWhile (· ≠ chr '{') =
      chr '{' :: (inside ++ chr '}' :: after) := by
    apply dropWhile_append_stop
    · exact fun c hc => decide_eq_true fun h => hbefore (h ▸ hc)
    · rintro c ⟨⟩
      rfl
  have hclose : (after.reverse ++ chr '}' :: inside.reverse).dropWhile (· ≠ chr '}') =
      chr '}' :: inside.reverse := by
    apply dropWhile_append_stop
    · exact fun c hc => decide_eq_true fun h => hafter (h ▸ List.mem_reverse.mp hc)
    · rintro c ⟨⟩
      rfl
  have hreverse : (inside ++ chr '}' :: after).reverse = after.reverse ++ chr '}' :: inside.reverse := by simp
  rw [braces, hopen, List.tail_cons, List.rdropWhile, hreverse, hclose, List.reverse_cons, List.reverse_reverse,
    List.dropLast_concat]

end CppLiteral
