import LspFramework.Json.Grammar

/-!
# What each round of the parser does

The scanners and the handlers of the parser, each on the texts it accepts and on all others:

* `parseString_ok_iff`, `parseSimpleValue_spec`, `parseSimpleValue_scalar`: the tokens;
* `turn_eq`: a round skips white space and runs the handler of the state on top;
* `handle_…`: the configuration a handler goes on with.
-/

namespace Lsp.Json

open Chars

/-! ## Strings -/

theorem StringBody.append {s t : Bytes} (hs : StringBody s) (ht : StringBody t) :
    StringBody (s ++ t) := by
  induction hs with
  | nil => exact ht
  | plain h₁ h₂ h₃ _ ih => exact .plain h₁ h₂ h₃ ih
  | escape h₁ _ ih => exact .escape h₁ ih

theorem scanString_body {n : Nat} {body : Bytes} (h : StringBody body) (r : Bytes) :
    scanString n false (body ++ chr '"' :: r) = .ok r := by
  induction h with
  | nil => rfl
  | @plain c s h₁ h₂ h₃ _ ih =>
    have hq : (!false && c == chr '"') = false := by simpa using h₁
    have hb : (!false && c == chr '\\') = false := by simpa using h₂
    rw [List.cons_append, scanString, if_neg h₃, if_neg (by rw [hq]; decide), hb]
    exact ih
  | @escape c s h₁ _ ih =>
    have hopen : scanString n false (chr '\\' :: c :: s ++ chr '"' :: r) =
        scanString n true (c :: (s ++ chr '"' :: r)) := rfl
    rw [hopen, scanString, if_neg h₁]
    exact ih

theorem scanString_ok {n : Nat} {b : Bool} {s r : Bytes} (h : scanString n b s = .ok r) :
    (b = false → ∃ body, StringBody body ∧ s = body ++ chr '"' :: r) ∧
    (b = true → ∃ c body, c ≠ chr '\n' ∧ StringBody body ∧ s = c :: body ++ chr '"' :: r) := by
  induction s generalizing b with
  | nil => simp [scanString, failAt] at h
  | cons c s ih =>
    simp only [scanString] at h
    split at h
    · exact absurd h (Parser.failAt_ne_ok _ _ _)
    · next hnl =>
      split at h
      · next hq =>
        simp only [Bool.and_eq_true, Bool.not_eq_true', beq_iff_eq] at hq
        cases h
        exact ⟨fun _ => ⟨[], .nil, by simp [hq.2]⟩, fun hb => by simp [hq.1] at hb⟩
      · next hq =>
        obtain ⟨ih₁, ih₂⟩ := ih h
        cases b with
        | false =>
          refine ⟨fun _ => ?_, fun hb => by cases hb⟩
          by_cases hbs : c = chr '\\'
          · obtain ⟨d, body, hd, hbody, rfl⟩ := ih₂ (by simp [hbs])
            exact ⟨chr '\\' :: d :: body, .escape hd hbody, by simp [hbs]⟩
          · obtain ⟨body, hbody, rfl⟩ := ih₁ (by simpa using hbs)
            have hq' : c ≠ chr '"' := by simpa using hq
            exact ⟨c :: body, .plain hq' hbs hnl hbody, rfl⟩
        | true =>
          refine ⟨fun hb => (by cases hb), ?_⟩
          intro _
          obtain ⟨body, hbody, rfl⟩ := ih₁ rfl
          exact ⟨c, body, hnl, hbody, rfl⟩

/-- A string that does not end is a `ParseError`. -/
theorem scanString_error {n : Nat} {b : Bool} {s : Bytes} {x : Exit}
    (h : scanString n b s = .error x) : ∃ e, x = .error e := by
  induction s generalizing b with
  | nil =>
    cases h
    exact ⟨_, rfl⟩
  | cons c s ih =>
    simp only [scanString] at h
    split at h
    · cases h
      exact ⟨_, rfl⟩
    · split at h
      · cases h
      · exact ih h

theorem between_append (t r : Bytes) : between (t ++ r) r = t := by
  simp [between]

theorem parseString_token {n : Nat} {t s : Bytes} (h : StringToken t s) (r : Bytes) :
    parseString n (t ++ r) = .ok (s, r) := by
  obtain ⟨body, hbody, rfl, rfl⟩ := h
  have hscan := scanString_body (n := n) hbody r
  have hb := between_append (chr '"' :: body ++ [chr '"']) r
  simp only [List.append_assoc, List.cons_append, List.nil_append] at hb ⊢
  simp only [parseString, List.head?_cons, if_true, List.tail_cons, hscan, bind, Except.bind, hb]

theorem parseString_ok {n : Nat} {pos s r : Bytes} (h : parseString n pos = .ok (s, r)) :
    ∃ t, StringToken t s ∧ pos = t ++ r := by
  unfold parseString at h
  split at h
  · next hq =>
    obtain ⟨rest, rfl⟩ := List.head?_eq_some_iff.mp hq
    simp only [Parser.bind_eq_ok, List.tail_cons] at h
    obtain ⟨r', hr, h⟩ := h
    simp only [Except.ok.injEq, Prod.mk.injEq] at h
    obtain ⟨hs, rfl⟩ := h
    obtain ⟨body, hbody, rfl⟩ := (scanString_ok hr).1 rfl
    refine ⟨chr '"' :: body ++ [chr '"'], ⟨body, hbody, rfl, ?_⟩, by simp⟩
    rw [← hs, ← between_append (chr '"' :: body ++ [chr '"']) r']
    simp
  · exact absurd h (Parser.failAt_ne_ok _ _ _)

theorem parseString_error {n : Nat} {pos : Bytes} {x : Exit} (h : parseString n pos = .error x) :
    ∃ e, x = .error e := by
  unfold parseString at h
  split at h
  · cases hr : scanString n false pos.tail with
    | ok r => simp [hr, bind, Except.bind] at h
    | error y =>
      simp only [hr, bind, Except.bind, Except.error.injEq] at h
      exact h ▸ scanString_error hr
  · cases h
    exact ⟨_, rfl⟩

/-! ## Scalars -/

theorem isNumberChar_of_isalnum {c : UInt8} (h : isalnum c = true) : isNumberChar c = true := by
  simp [isNumberChar, h]

theorem head_isNumberChar {c : UInt8} (h : (isdigit c || c == chr '-') = true) : isNumberChar c = true := by
  rcases (Bool.or_eq_true _ _).mp h with hd | hm
  · exact isNumberChar_of_isalnum (isalnum_of_isdigit hd)
  · rw [isNumberChar, hm, Bool.or_true, Bool.true_or]

theorem follows_dropWhile (s : Bytes) : Follows (s.dropWhile isNumberChar) := fun _ => head?_dropWhile

theorem numberToken_takeWhile {c : UInt8} {s : Bytes} (h : (isdigit c || c == chr '-') = true)
    {r : Except StdException Value} (hr : numberValue ((c :: s).takeWhile isNumberChar) = some r) :
    NumberToken ((c :: s).takeWhile isNumberChar) r where
  head := ⟨c, s.takeWhile isNumberChar, by rw [List.takeWhile_cons_of_pos (head_isNumberChar h)], h⟩
  chars := fun _ hc => List.all_eq_true.mp List.all_takeWhile _ hc
  value := hr

/-- A run of number characters is taken whole, whatever its value. -/
theorem parseNumber_run {n : Nat} {t r : Bytes} (ht : ∀ c ∈ t, isNumberChar c = true) (hr : Follows r) :
    parseNumber n (t ++ r) =
      match numberValue t with
      | none => failAt (bytes "Invalid number value: '" ++ t ++ bytes "'") (textOffset n (t ++ r))
      | some (.error e) => .error (.throws e)
      | some (.ok v) => .ok (v, r) := by
  have htoken := takeWhile_append_stop ht hr
  have hrest := dropWhile_append_stop ht hr
  cases hv : numberValue t with
  | none => simp only [parseNumber, htoken, hv]
  | some x => cases x <;> simp only [parseNumber, htoken, hrest, hv]

theorem takeWhile_word {w : Bytes} (hw : w.all isalnum = true) {r : Bytes} (hr : Follows r) :
    (w ++ r).takeWhile isalnum = w ∧ (w ++ r).dropWhile isalnum = r := by
  have hr' : ∀ c, r.head? = some c → isalnum c = false := by
    intro c hc
    have := hr c hc
    simp only [isNumberChar, Bool.or_eq_false_iff] at this
    exact this.1.1
  have hw' := List.all_eq_true.mp hw
  exact ⟨takeWhile_append_stop hw' hr', dropWhile_append_stop hw' hr'⟩

theorem parseSimpleValue_run {n : Nat} {t r : Bytes}
    (hhead : ∃ c s, t = c :: s ∧ (isdigit c || c == chr '-') = true) (ht : ∀ c ∈ t, isNumberChar c = true)
    (hr : Follows r) :
    parseSimpleValue n (t ++ r) =
      match numberValue t with
      | none => failAt (bytes "Invalid number value: '" ++ t ++ bytes "'") (textOffset n (t ++ r))
      | some (.error e) => .error (.throws e)
      | some (.ok v) => .ok (v, r) := by
  have hnum := parseNumber_run (n := n) ht hr
  obtain ⟨c, s, rfl, hc⟩ := hhead
  have hq : c ≠ chr '"' := by
    rintro rfl
    revert hc
    decide
  simp only [List.cons_append] at hnum ⊢
  simp only [parseSimpleValue, charAt, bind, Except.bind, hq, if_false, hc, if_true, hnum]

theorem parseSimpleValue_number {n : Nat} {t : Bytes} {x : Except StdException Value}
    (h : NumberToken t x) {r : Bytes} (hr : Follows r) :
    parseSimpleValue n (t ++ r) =
      match x with
      | .ok v => .ok (v, r)
      | .error e => .error (.throws e) := by
  rw [parseSimpleValue_run h.head h.chars hr, h.value]
  cases x <;> rfl

/-- **A scalar token is read whole**, when what follows does not continue it. -/
theorem parseSimpleValue_scalar {n : Nat} {t : Bytes} {v : Value} (h : Scalar t v) {r : Bytes}
    (hr : Follows r) : parseSimpleValue n (t ++ r) = .ok (v, r) := by
  cases h with
  | string hs =>
    have hstr := parseString_token (n := n) hs r
    obtain ⟨body, -, rfl, -⟩ := hs
    simp only [List.cons_append] at hstr ⊢
    simp only [parseSimpleValue, charAt, bind, Except.bind, if_true, hstr]
  | number hn => exact parseSimpleValue_number hn hr
  | true_ =>
    obtain ⟨h₁, h₂⟩ := takeWhile_word (w := bytes "true") (by decide) hr
    have hid : parseIdentifier n (bytes "true" ++ r) = .ok (.boolean true, r) := by
      simp only [parseIdentifier, h₁, h₂, if_true]
    exact hid
  | false_ =>
    obtain ⟨h₁, h₂⟩ := takeWhile_word (w := bytes "false") (by decide) hr
    have hid : parseIdentifier n (bytes "false" ++ r) = .ok (.boolean false, r) := by
      simp only [parseIdentifier, h₁, h₂, if_true]
      rfl
    exact hid
  | null =>
    obtain ⟨h₁, h₂⟩ := takeWhile_word (w := bytes "null") (by decide) hr
    have hid : parseIdentifier n (bytes "null" ++ r) = .ok (.null, r) := by
      simp only [parseIdentifier, h₁, h₂, if_true]
      rfl
    exact hid

/-- What `parseSimpleValue` does: a scalar token, a `ParseError`, or a number that throws. -/
inductive SimpleOutcome (n : Nat) (pos : Bytes) : Prop
  | scalar {t r : Bytes} {v : Value} : Scalar t v → pos = t ++ r →
      parseSimpleValue n pos = .ok (v, r) → SimpleOutcome n pos
  | error {e : ParseError} : parseSimpleValue n pos = .error (.error e) → SimpleOutcome n pos
  | throws {t r : Bytes} {e : StdException} : NumberToken t (.error e) → Follows r → pos = t ++ r →
      parseSimpleValue n pos = .error (.throws e) → SimpleOutcome n pos

theorem parseSimpleValue_outcome (n : Nat) (c : UInt8) (s : Bytes) : SimpleOutcome n (c :: s) := by
  have hsplit := List.takeWhile_append_dropWhile (p := isNumberChar) (l := c :: s)
  have hword := List.takeWhile_append_dropWhile (p := isalnum) (l := c :: s)
  by_cases hq : c = chr '"'
  · have hsv : parseSimpleValue n (c :: s) =
        (parseString n (c :: s) >>= fun x => .ok (.string x.1, x.2)) := by
      simp only [parseSimpleValue, charAt, bind, Except.bind, hq, if_true]
    cases hp : parseString n (c :: s) with
    | ok x =>
      obtain ⟨t, ht, hpos⟩ := parseString_ok hp
      exact .scalar (.string ht) hpos (by rw [hsv, hp]; rfl)
    | error x =>
      obtain ⟨e, rfl⟩ := parseString_error hp
      exact .error (by rw [hsv, hp]; rfl)
  · by_cases hd : (isdigit c || c == chr '-') = true
    · have hsv : parseSimpleValue n (c :: s) = parseNumber n (c :: s) := by
        simp only [parseSimpleValue, charAt, bind, Except.bind, hq, if_false, hd, if_true]
      cases hv : numberValue ((c :: s).takeWhile isNumberChar) with
      | none =>
        exact .error (by rw [hsv, parseNumber]; simp only [hv]; rfl)
      | some x =>
        cases x with
        | error e =>
          exact .throws (numberToken_takeWhile hd hv) (follows_dropWhile _) hsplit.symm
            (by rw [hsv, parseNumber]; simp only [hv])
        | ok v =>
          exact .scalar (.number (numberToken_takeWhile hd hv)) hsplit.symm
            (by rw [hsv, parseNumber]; simp only [hv])
    · by_cases ha : isalpha c = true
      · have hsv : parseSimpleValue n (c :: s) = parseIdentifier n (c :: s) := by
          simp only [parseSimpleValue, charAt, bind, Except.bind, hq, if_false, hd, ha, if_true]
          rfl
        by_cases h₁ : (c :: s).takeWhile isalnum = bytes "true"
        · rw [h₁] at hword
          exact .scalar .true_ hword.symm (by simp only [hsv, parseIdentifier, h₁, if_true])
        · by_cases h₂ : (c :: s).takeWhile isalnum = bytes "false"
          · rw [h₂] at hword
            exact .scalar .false_ hword.symm (by rw [hsv, parseIdentifier, h₂]; rfl)
          · by_cases h₃ : (c :: s).takeWhile isalnum = bytes "null"
            · rw [h₃] at hword
              exact .scalar .null hword.symm (by rw [hsv, parseIdentifier, h₃]; rfl)
            · exact .error (by simp only [hsv, parseIdentifier, h₁, h₂, h₃, if_false]; rfl)
      · exact .error (by
          simp only [parseSimpleValue, charAt, bind, Except.bind, hq, if_false, hd, ha]
          rfl)

/-! ## Rounds -/

theorem skipWhitespace_ws {w s : Bytes} (hw : Ws w) (hs : ∀ c, s.head? = some c → isspace c = false) :
    skipWhitespace (w ++ s) = s :=
  dropWhile_append_stop hw hs

/-- Every text is white space and a rest that does not begin with white space. -/
theorem split_ws (s : Bytes) :
    ∃ w s', Ws w ∧ s = w ++ s' ∧ ∀ c, s'.head? = some c → isspace c = false :=
  ⟨s.takeWhile isspace, s.dropWhile isspace, fun _ => List.all_eq_true.mp List.all_takeWhile _,
    List.takeWhile_append_dropWhile.symm, fun _ => head?_dropWhile⟩

namespace Parser

open Value (deref? store)

variable {n : Nat} {w s : Bytes} {c : UInt8} {e : StateStackEntry} {K : List StateStackEntry}
  {R : Value} {p : Value.Pointer}

theorem turn_eq (hw : Ws w) (hc : isspace c = false) :
    turn ⟨n, w ++ c :: s, e :: K, R⟩ =
      match handle ⟨n, c :: s, e :: K, R⟩ with
      | .ok p' => .next p'
      | .error x => .done (.error x) := by
  have hskip : skipWhitespace (w ++ c :: s) = c :: s := by
    apply skipWhitespace_ws hw
    simp [hc]
  cases h : handle ⟨n, c :: s, e :: K, R⟩ with
  | ok p' => simp only [turn, hskip, reduceCtorEq, if_false, h]
  | error x => simp only [turn, hskip, reduceCtorEq, if_false, h]

theorem turn_end (hw : Ws w) :
    turn ⟨n, w, e :: K, R⟩ = .done (failAt (bytes "Unexpected end of input") n) := by
  have hskip : skipWhitespace w = [] := by
    have := skipWhitespace_ws (s := []) hw (by simp)
    rwa [List.append_nil] at this
  simp only [turn, hskip, reduceCtorEq, if_false, if_true, textOffset, List.length_nil, Nat.sub_zero]

theorem turn_finish (hw : Ws w) : turn ⟨n, w, [], R⟩ = .done (.ok R) := by
  have hskip : skipWhitespace w = [] := by
    have := skipWhitespace_ws (s := []) hw (by simp)
    rwa [List.append_nil] at this
  simp only [turn, hskip, if_true]

theorem turn_trailing (hw : Ws w) (hc : isspace c = false) :
    turn ⟨n, w ++ c :: s, [], R⟩ =
      .done (failAt (bytes "Trailing characters in json") (textOffset n (c :: s))) := by
  have hskip : skipWhitespace (w ++ c :: s) = c :: s := by
    apply skipWhitespace_ws hw
    simp [hc]
  simp only [turn, hskip, if_true, reduceCtorEq, if_false]

theorem handle_value_object {old : Value} (hd : deref? p R = some old) :
    handle ⟨n, chr '{' :: s, ⟨.value, p⟩ :: K, R⟩ =
      .ok ⟨n, s, ⟨.object, p⟩ :: ⟨.value, p⟩ :: K, store p (.object []) R⟩ := by
  simp [handle, handleValue, top, check, charAt, setCurrentValue, currentValue, pushState, hd, bind,
    Except.bind]

theorem handle_value_array {old : Value} (hd : deref? p R = some old) :
    handle ⟨n, chr '[' :: s, ⟨.value, p⟩ :: K, R⟩ =
      .ok ⟨n, s, ⟨.array, p⟩ :: ⟨.value, p⟩ :: K, store p (.array []) R⟩ := by
  simp [handle, handleValue, top, check, charAt, setCurrentValue, currentValue, pushState, hd, bind,
    Except.bind]

theorem handle_value_scalar {old : Value} (hd : deref? p R = some old) (h₁ : c ≠ chr '{')
    (h₂ : c ≠ chr '[') :
    handle ⟨n, c :: s, ⟨.value, p⟩ :: K, R⟩ =
      match parseSimpleValue n (c :: s) with
      | .ok (v, r) => .ok ⟨n, r, K, store p v R⟩
      | .error x => .error x := by
  simp only [handle, handleValue, top, check, charAt, h₁, h₂, bind, Except.bind, decide_true, if_true,
    if_false]
  cases parseSimpleValue n (c :: s) with
  | ok x => simp [setCurrentValue, currentValue, top, popState, hd, bind, Except.bind]
  | error x => rfl

theorem handle_object_close :
    handle ⟨n, chr '}' :: s, ⟨.object, p⟩ :: e :: K, R⟩ = .ok ⟨n, s, K, R⟩ := by
  simp [handle, handleObject, top, check, charAt, popState, bind, Except.bind]

theorem handle_object_member {ms : Object} (hd : deref? p R = some (.object ms)) (hc : c ≠ chr '}') :
    handle ⟨n, c :: s, ⟨.object, p⟩ :: K, R⟩ =
      match separator n ms.isEmpty (chr '}') (c :: s) with
      | .ok s' => .ok ⟨n, s', ⟨.objectKey, p⟩ :: ⟨.object, p⟩ :: K, R⟩
      | .error x => .error x := by
  simp only [handle, handleObject, top, check, charAt, currentObject, currentValue, hd, hc, bind,
    Except.bind, decide_true, if_true, if_false]
  cases separator n ms.isEmpty (chr '}') (c :: s) <;> rfl

theorem handle_objectKey {ms : Object} (hd : deref? p R = some (.object ms)) :
    handle ⟨n, s, ⟨.objectKey, p⟩ :: K, R⟩ =
      match parseString n s with
      | .ok (key, s') =>
        if Object.contains key ms then
          failAt (bytes "Duplicate key '" ++ key ++ bytes "'") (textOffset n s)
        else if (skipWhitespace s').head? ≠ some (chr ':') then
          failAt (bytes "Expected ':'") (textOffset n (skipWhitespace s'))
        else .ok ⟨n, (skipWhitespace s').tail, ⟨.value, p ++ [.key key]⟩ :: K,
          store p (.object (Object.index key ms)) R⟩
      | .error x => .error x := by
  simp only [handle, handleObjectKey, top, check, currentObject, currentValue, hd, bind, Except.bind,
    decide_true, if_true]
  cases parseString n s with
  | ok x =>
    simp only []
    split
    · rfl
    · split
      · rfl
      · simp [setCurrentValue, currentValue, top, popState, pushState, hd, bind, Except.bind]
  | error x => rfl

theorem handle_array_close :
    handle ⟨n, chr ']' :: s, ⟨.array, p⟩ :: e :: K, R⟩ = .ok ⟨n, s, K, R⟩ := by
  simp [handle, handleArray, top, check, charAt, popState, bind, Except.bind]

theorem handle_array_element {vs : Array} (hd : deref? p R = some (.array vs)) (hc : c ≠ chr ']') :
    handle ⟨n, c :: s, ⟨.array, p⟩ :: K, R⟩ =
      match separator n vs.isEmpty (chr ']') (c :: s) with
      | .ok s' => .ok ⟨n, s', ⟨.value, p ++ [.index vs.length]⟩ :: ⟨.array, p⟩ :: K,
          store p (.array (vs ++ [Value.null])) R⟩
      | .error x => .error x := by
  simp only [handle, handleArray, top, check, charAt, currentArray, currentValue, hd, hc, bind,
    Except.bind, decide_true, if_true, if_false]
  cases separator n vs.isEmpty (chr ']') (c :: s) with
  | ok s' => simp [setCurrentValue, currentValue, top, pushState, hd, bind, Except.bind]
  | error x => rfl

end Parser

end Lsp.Json
