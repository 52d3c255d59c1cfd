import LspFramework.Json.Continuations

/-!
# Where a `ParseError` points

An editor shows the user the place that `textPos()` names, so what stands before it should be sound:
the text up to that place can be continued to one that `parse` accepts.  There is one exception: a
word that is none of `true`, `false` and `null`, nor the beginning of one, is reported at its end.

`StopsIn…` holds of the text before the place, inside the container at hand: it can be continued there, or it
ends with such a word (`Spoils…`).  One induction on the length of the text, with one lemma for each
context, follows the parser to the place of the error.

    parse text = .error (.error e) →
      e.textPos ≤ text.length ∧ (Viable … ∨ WordBehind … ∧ ¬ Viable …)              (parse_error_position)
-/

namespace Lsp.Json

open Chars Loop Lsp.Json.Parser
open Value (deref? store)

/-- A word that no continuation makes one of the three. -/
structure UnknownWord (word : Bytes) : Prop where
  head : ∃ c s, word = c :: s ∧ isalpha c = true
  chars : ∀ c ∈ word, isalnum c = true
  new : ¬ word <+: bytes "true" ∧ ¬ word <+: bytes "false" ∧ ¬ word <+: bytes "null"

/-- Behind the beginning of a text stands an unknown word, and that is what the error says. -/
def WordBehind (starts : Bytes → Prop) (e : ParseError) (u : Bytes) : Prop :=
  ∃ start word, u = start ++ word ∧ starts start ∧ UnknownWord word ∧
    e.message = bytes "Unexpected '" ++ word ++ bytes "'"

/-- The error points behind a prefix of `s` that has the property. -/
def PointsBehind (n : Nat) (s : Bytes) (e : ParseError) (P : Bytes → Prop) : Prop :=
  ∃ u r, s = u ++ r ∧ e.textPos = textOffset n r ∧ P u

theorem PointsBehind.mono {n : Nat} {s a : Bytes} {e : ParseError} {P Q : Bytes → Prop}
    (h : PointsBehind n s e P) (himp : ∀ u, P u → Q (a ++ u)) : PointsBehind n (a ++ s) e Q := by
  obtain ⟨u, r, rfl, hpos, hu⟩ := h
  exact ⟨a ++ u, r, by rw [List.append_assoc], hpos, himp u hu⟩

theorem pointsBehind_here {n : Nat} {a r message : Bytes} {P : Bytes → Prop} (h : P a) :
    PointsBehind n (a ++ r) ⟨message, textOffset n r⟩ P :=
  ⟨a, r, rfl, rfl, h⟩

/-! ## Strings -/

/-- A scan that fails stops at a newline or at the end, inside a string. -/
theorem scanString_open {n : Nat} {b : Bool} {s : Bytes} {e : ParseError}
    (h : scanString n b s = .error (.error e)) :
    (b = false → PointsBehind n s e OpenBody) ∧
      (b = true → PointsBehind n s e fun u => OpenBody (chr '\\' :: u)) := by
  have hopen : OpenBody [] := .inl .nil
  have hopen' : OpenBody [chr '\\'] := .inr ⟨[], .nil, rfl⟩
  induction s generalizing b with
  | nil =>
    cases h
    exact ⟨fun _ => pointsBehind_here (a := []) hopen, fun _ => pointsBehind_here (a := []) hopen'⟩
  | cons c s ih =>
    simp only [scanString] at h
    split at h
    · cases h
      exact ⟨fun _ => pointsBehind_here (a := []) hopen, fun _ => pointsBehind_here (a := []) hopen'⟩
    · next hnl =>
      split at h
      · cases h
      · next hq =>
        obtain ⟨ih₁, ih₂⟩ := ih h
        cases b with
        | false =>
          refine ⟨fun _ => ?_, fun hb => by cases hb⟩
          by_cases hbs : c = chr '\\'
          · subst hbs
            exact (ih₂ rfl).mono (a := [chr '\\']) fun _ hu => hu
          · have hq' : c ≠ chr '"' := by simpa using hq
            refine (ih₁ (by simpa using hbs)).mono (a := [c]) ?_
            rintro u (hu | ⟨front, hfront, rfl⟩)
            · exact .inl (.plain hq' hbs hnl hu)
            · exact .inr ⟨c :: front, .plain hq' hbs hnl hfront, rfl⟩
        | true =>
          refine ⟨fun hb => (by cases hb), fun _ => ?_⟩
          refine (ih₁ rfl).mono (a := [c]) ?_
          rintro u (hu | ⟨front, hfront, rfl⟩)
          · exact .inl (.escape hnl hu)
          · exact .inr ⟨chr '\\' :: c :: front, .escape hnl hfront, rfl⟩

/-- Where `parseString` fails: before the token, or inside it. -/
theorem parseString_points {n : Nat} {s : Bytes} {e : ParseError} (h : parseString n s = .error (.error e)) :
    PointsBehind n s e fun u => u = [] ∨ ∃ body, OpenBody body ∧ u = chr '"' :: body := by
  unfold parseString at h
  split at h
  · next hq =>
    obtain ⟨rest, rfl⟩ := List.head?_eq_some_iff.mp hq
    cases hscan : scanString n false rest with
    | ok r => simp [hscan, bind, Except.bind] at h
    | error x =>
      simp only [List.tail_cons, hscan, bind, Except.bind, Except.error.injEq] at h
      subst h
      exact ((scanString_open hscan).1 rfl).mono (a := [chr '"']) fun body hbody => .inr ⟨body, hbody, rfl⟩
  · cases h
    exact pointsBehind_here (a := []) (.inl rfl)

/-! ## Words that spoil a text -/

/-- The word is met where a value is due, whatever comes behind it. -/
structure SpoilsValue (e : ParseError) (u : Bytes) : Prop where
  word : WordBehind StartsValue e u
  leaves : ∃ w t, u = w ++ t ∧ Ws w ∧ (∃ c s, t = c :: s ∧ isspace c = false ∧ c ≠ chr ']') ∧
    ∀ r, LeavesAt (fun _ => True) (t ++ r)

structure SpoilsElements (first : Bool) (e : ParseError) (u : Bytes) : Prop where
  word : WordBehind (StartsElements first) e u
  follows : first = false → ∀ r, Follows (u ++ r)
  leaves : ∀ r, LeavesInElements (fun _ => True) first (u ++ r)

structure SpoilsMembers (first : Bool) (keys : List Bytes) (e : ParseError) (u : Bytes) : Prop where
  word : WordBehind (StartsMembers first keys) e u
  follows : first = false → ∀ r, Follows (u ++ r)
  leaves : ∀ r, LeavesInMembers (fun _ => True) first keys (u ++ r)

theorem WordBehind.mono {P Q : Bytes → Prop} {e : ParseError} {u a : Bytes} (h : WordBehind P e u)
    (himp : ∀ u, P u → Q (a ++ u)) : WordBehind Q e (a ++ u) := by
  obtain ⟨start, word, rfl, hstart, hword, hmessage⟩ := h
  exact ⟨a ++ start, word, by rw [List.append_assoc], himp start hstart, hword, hmessage⟩

theorem isalpha_facts : ∀ c : UInt8, isalpha c = true →
    (isdigit c || c == chr '-') = false ∧ isspace c = false ∧ c ≠ chr '"' ∧ c ≠ chr '{' ∧ c ≠ chr '[' ∧ c ≠ chr ']' :=
  forall_byte (by decide +kernel)

/-- A word is read to its end and compared with the three. -/
theorem parseSimpleValue_word {n : Nat} {c : UInt8} {s : Bytes} (hc : isalpha c = true) :
    parseSimpleValue n (c :: s) = parseIdentifier n (c :: s) := by
  obtain ⟨hd, -, hq, -⟩ := isalpha_facts c hc
  simp only [parseSimpleValue, charAt, bind, Except.bind, hq, hd, hc, if_true, if_false, Bool.false_eq_true]

theorem UnknownWord.leaves {word : Bytes} (h : UnknownWord word) (r : Bytes) :
    LeavesAt (fun _ => True) (word ++ r) := by
  intro n w p K R old hw hd
  obtain ⟨c, s, rfl, hc⟩ := h.head
  obtain ⟨-, hsp, -, hobj, harr, -⟩ := isalpha_facts c hc
  have hid : (c :: s ++ r).takeWhile isalnum = c :: s ++ r.takeWhile isalnum :=
    List.takeWhile_append_of_pos h.chars
  have hne (known : Bytes) (hnew : ¬ c :: s <+: known) : c :: s ++ r.takeWhile isalnum ≠ known := by
    rintro rfl
    exact hnew (List.prefix_append _ _)
  obtain ⟨htrue, hfalse, hnull⟩ := h.new
  have hparse : ∃ x, parseIdentifier n (c :: s ++ r) = .error x := by
    rw [parseIdentifier, hid, if_neg (hne _ htrue), if_neg (hne _ hfalse), if_neg (hne _ hnull)]
    exact ⟨_, rfl⟩
  obtain ⟨x, hx⟩ := hparse
  refine ⟨x, trivial, ends_done ?_⟩
  rw [List.cons_append] at hx ⊢
  rw [turn_eq hw hsp, handle_value_scalar hd hobj harr, parseSimpleValue_word hc, hx]

theorem spoilsValue_word {w word : Bytes} {e : ParseError} (hw : Ws w) (h : UnknownWord word)
    (hmessage : e.message = bytes "Unexpected '" ++ word ++ bytes "'") : SpoilsValue e (w ++ word) where
  word := ⟨w, word, rfl, startsValue_ws hw, h, hmessage⟩
  leaves := by
    obtain ⟨c, s, rfl, hc⟩ := h.head
    obtain ⟨-, hsp, -, -, -, hclose⟩ := isalpha_facts c hc
    exact ⟨w, c :: s, rfl, hw, ⟨c, s, rfl, hsp, hclose⟩, h.leaves⟩

theorem SpoilsValue.not_viable {e : ParseError} {u : Bytes} (h : SpoilsValue e u) : ¬ Viable u := by
  rintro ⟨rest, v, hv⟩
  obtain ⟨w, t, rfl, hw, -, hleaves⟩ := h.leaves
  obtain ⟨x, -, hx⟩ := hleaves rest (w ++ t ++ rest).length w [] [] .null .null hw rfl
  rw [← List.append_assoc] at hx
  rw [(parse_eq_iff _ _).2 hx] at hv
  cases hv

theorem SpoilsValue.element {first : Bool} {e : ParseError} {s u : Bytes} (h : SpoilsValue e u)
    (hs : Separator first s) : SpoilsElements first e (s ++ u) := by
  obtain ⟨hword, w, t, rfl, hw, hhead, hleaves⟩ := h
  refine ⟨hword.mono fun u hu => hu.element hs, ?_, fun r => ?_⟩
  · rintro rfl r
    rw [List.append_assoc]
    exact follows_separator hs _
  · obtain ⟨c, s', rfl, hc⟩ := hhead
    have := leaves_elements_here (hs.append_ws hw) ⟨c, s' ++ r, rfl, hc⟩ (hleaves r)
    simpa only [List.append_assoc, List.cons_append] using this

theorem SpoilsElements.later {first : Bool} {e : ParseError} {s t u : Bytes} {v : Value}
    (h : SpoilsElements false e u) (hs : Separator first s) (ht : Derives t v) :
    SpoilsElements first e (s ++ t ++ u) := by
  refine ⟨h.word.mono fun u hu => hu.later hs ht, ?_, fun r => ?_⟩
  · rintro rfl r
    rw [List.append_assoc, List.append_assoc]
    exact follows_separator hs _
  · rw [List.append_assoc (s ++ t)]
    exact leaves_elements_later hs ht (h.follows rfl r) (h.leaves r)

theorem SpoilsValue.member {first : Bool} {keys : List Bytes} {e : ParseError} {s k key w₁ u : Bytes}
    (h : SpoilsValue e u) (hnd : keys.Nodup) (hs : Separator first s) (hk : StringToken k key)
    (hnew : key ∉ keys) (hw₁ : Ws w₁) : SpoilsMembers first keys e (s ++ (k ++ (w₁ ++ chr ':' :: u))) := by
  obtain ⟨hword, w, t, rfl, hw, -, hleaves⟩ := h
  refine ⟨?_, ?_, fun r => ?_⟩
  · have := hword.mono (Q := StartsMembers first keys) (a := s ++ (k ++ (w₁ ++ [chr ':']))) fun u hu => by
      simpa only [List.append_assoc, List.singleton_append] using hu.member hnd hs hk hnew hw₁
    simpa only [List.append_assoc, List.singleton_append] using this
  · rintro rfl r
    rw [List.append_assoc]
    exact follows_separator hs _
  · have := leaves_members_here hs hk hnew hw₁ hw (hleaves r)
    simpa only [List.append_assoc, List.cons_append] using this

theorem SpoilsMembers.later {first : Bool} {keys : List Bytes} {e : ParseError} {s k key w₁ w₂ t u : Bytes}
    {v : Value} (h : SpoilsMembers false (keys ++ [key]) e u) (hs : Separator first s) (hk : StringToken k key)
    (hnew : key ∉ keys) (hw₁ : Ws w₁) (hw₂ : Ws w₂) (ht : Derives t v) :
    SpoilsMembers first keys e (s ++ (k ++ (w₁ ++ chr ':' :: (w₂ ++ (t ++ u))))) := by
  refine ⟨?_, ?_, fun r => ?_⟩
  · have := h.word.mono (Q := StartsMembers first keys) (a := s ++ (k ++ (w₁ ++ chr ':' :: (w₂ ++ t)))) fun u hu => by
      simpa only [List.append_assoc, List.cons_append] using hu.later hs hk hw₁ hw₂ ht
    simpa only [List.append_assoc, List.cons_append] using this
  · rintro rfl r
    rw [List.append_assoc]
    exact follows_separator hs _
  · have := leaves_members_later hs hk hnew hw₁ hw₂ ht (h.follows rfl r) (h.leaves r)
    simpa only [List.append_assoc, List.cons_append] using this

theorem SpoilsElements.value {e : ParseError} {u w : Bytes} (h : SpoilsElements true e u) (hw : Ws w) :
    SpoilsValue e (w ++ chr '[' :: u) where
  word := by
    have := h.word.mono (Q := StartsValue) (a := w ++ [chr '[']) fun u hu => by
      simpa only [List.append_assoc, List.singleton_append] using hu.value hw
    simpa only [List.append_assoc, List.singleton_append] using this
  leaves := ⟨w, _, rfl, hw, ⟨_, _, rfl, by decide, by decide⟩, fun r => leaves_array (h.leaves r)⟩

theorem SpoilsMembers.value {e : ParseError} {u w : Bytes} (h : SpoilsMembers true [] e u) (hw : Ws w) :
    SpoilsValue e (w ++ chr '{' :: u) where
  word := by
    have := h.word.mono (Q := StartsValue) (a := w ++ [chr '{']) fun u hu => by
      simpa only [List.append_assoc, List.singleton_append] using hu.value hw
    simpa only [List.append_assoc, List.singleton_append] using this
  leaves := ⟨w, _, rfl, hw, ⟨_, _, rfl, by decide, by decide⟩, fun r => leaves_object (h.leaves r)⟩

/-! ## Where each context fails -/

def StopsInValue (e : ParseError) (u : Bytes) : Prop := StartsValue u ∨ SpoilsValue e u

def StopsInElements (first : Bool) (e : ParseError) (u : Bytes) : Prop :=
  StartsElements first u ∨ SpoilsElements first e u

def StopsInMembers (first : Bool) (keys : List Bytes) (e : ParseError) (u : Bytes) : Prop :=
  StartsMembers first keys u ∨ SpoilsMembers first keys e u

section Stops

variable {e : ParseError} {first : Bool} {keys : List Bytes} {s k key w w₁ w₂ t u : Bytes} {v : Value}

theorem StopsInValue.element (h : StopsInValue e u) (hs : Separator first s) : StopsInElements first e (s ++ u) :=
  h.imp (fun h => h.element hs) (fun h => h.element hs)

theorem StopsInElements.later (h : StopsInElements false e u) (hs : Separator first s) (ht : Derives t v) :
    StopsInElements first e (s ++ t ++ u) :=
  h.imp (fun h => h.later hs ht) (fun h => h.later hs ht)

theorem StopsInElements.value (h : StopsInElements true e u) (hw : Ws w) : StopsInValue e (w ++ [chr '['] ++ u) := by
  rw [List.append_assoc]
  exact h.imp (fun h => h.value hw) (fun h => h.value hw)

theorem StopsInValue.member (h : StopsInValue e u) (hnd : keys.Nodup) (hs : Separator first s)
    (hk : StringToken k key) (hnew : key ∉ keys) (hw₁ : Ws w₁) :
    StopsInMembers first keys e (s ++ k ++ w₁ ++ [chr ':'] ++ u) := by
  simp only [List.append_assoc, List.singleton_append]
  exact h.imp (fun h => h.member hnd hs hk hnew hw₁) (fun h => h.member hnd hs hk hnew hw₁)

theorem StopsInMembers.later (h : StopsInMembers false (keys ++ [key]) e u) (hs : Separator first s)
    (hk : StringToken k key) (hnew : key ∉ keys) (hw₁ : Ws w₁) (hw₂ : Ws w₂) (ht : Derives t v) :
    StopsInMembers first keys e (s ++ k ++ w₁ ++ [chr ':'] ++ (w₂ ++ t) ++ u) := by
  simp only [List.append_assoc, List.cons_append]
  exact h.imp (fun h => h.later hs hk hw₁ hw₂ ht) (fun h => h.later hs hk hnew hw₁ hw₂ ht)

theorem StopsInMembers.value (h : StopsInMembers true [] e u) (hw : Ws w) : StopsInValue e (w ++ [chr '{'] ++ u) := by
  rw [List.append_assoc]
  exact h.imp (fun h => h.value hw) (fun h => h.value hw)

end Stops

theorem known_of_not_unknown {word : Bytes} (hhead : ∃ c s, word = c :: s ∧ isalpha c = true)
    (hchars : ∀ c ∈ word, isalnum c = true) (h : ¬ UnknownWord word) : ∃ rest v, Scalar (word ++ rest) v := by
  have hsome : ¬ (¬ word <+: bytes "true" ∧ ¬ word <+: bytes "false" ∧ ¬ word <+: bytes "null") :=
    fun hnew => h ⟨hhead, hchars, hnew⟩
  by_cases htrue : word <+: bytes "true"
  · obtain ⟨rest, hrest⟩ := htrue
    exact ⟨rest, _, by rw [hrest]; exact .true_⟩
  · by_cases hfalse : word <+: bytes "false"
    · obtain ⟨rest, hrest⟩ := hfalse
      exact ⟨rest, _, by rw [hrest]; exact .false_⟩
    · by_cases hnull : word <+: bytes "null"
      · obtain ⟨rest, hrest⟩ := hnull
        exact ⟨rest, _, by rw [hrest]; exact .null⟩
      · exact absurd ⟨htrue, hfalse, hnull⟩ hsome

theorem parseNumber_points {n : Nat} {w s : Bytes} (hw : Ws w) {e : ParseError}
    (h : parseNumber n s = .error (.error e)) : PointsBehind n (w ++ s) e (StopsInValue e) := by
  unfold parseNumber at h
  cases hv : numberValue (s.takeWhile isNumberChar) with
  | none =>
    simp only [hv, failAt, Except.error.injEq, Exit.error.injEq] at h
    subst h
    exact pointsBehind_here (.inl (startsValue_ws hw))
  | some x => cases x <;> simp [hv] at h

theorem parseIdentifier_points {n : Nat} {w : Bytes} (hw : Ws w) {c : UInt8} (hc : isalpha c = true) {s : Bytes}
    {e : ParseError} (h : parseIdentifier n (c :: s) = .error (.error e)) :
    PointsBehind n (w ++ c :: s) e (StopsInValue e) := by
  have hword := List.takeWhile_append_dropWhile (p := isalnum) (l := c :: s)
  have hchars : ∀ d ∈ (c :: s).takeWhile isalnum, isalnum d = true :=
    fun d hd => List.all_eq_true.mp List.all_takeWhile d hd
  have hhead : ∃ d t, (c :: s).takeWhile isalnum = d :: t ∧ isalpha d = true :=
    ⟨c, s.takeWhile isalnum, List.takeWhile_cons_of_pos (by simp [isalnum, hc]), hc⟩
  simp only [parseIdentifier] at h
  split_ifs at h
  simp only [failAt, Except.error.injEq, Exit.error.injEq] at h
  subst h
  refine ⟨w ++ (c :: s).takeWhile isalnum, _, by rw [List.append_assoc, hword], rfl, ?_⟩
  by_cases hnew : UnknownWord ((c :: s).takeWhile isalnum)
  · exact .inr (spoilsValue_word hw hnew rfl)
  · -- the word ends before `true`, `false` or `null` does
    obtain ⟨rest, v, hv⟩ := known_of_not_unknown hhead hchars hnew
    exact .inl ⟨rest, w, _, v, by rw [List.append_assoc], hw, .scalar hv⟩

/-- Where a scalar fails: at its first byte, inside a string, or behind a word. -/
theorem parseSimpleValue_points {n : Nat} {w : Bytes} (hw : Ws w) {c : UInt8} {s : Bytes} {e : ParseError}
    (h : parseSimpleValue n (c :: s) = .error (.error e)) :
    PointsBehind n (w ++ c :: s) e (StopsInValue e) := by
  by_cases hq : c = chr '"'
  · have hsv : parseSimpleValue n (c :: s) =
        (parseString n (c :: s) >>= fun x => .ok (.string x.1, x.2)) := by
      simp only [parseSimpleValue, charAt, bind, Except.bind, hq, if_true]
    rw [hsv] at h
    cases hp : parseString n (c :: s) with
    | ok x =>
      rw [hp] at h
      cases h
    | error x =>
      rw [hp] at h
      cases h
      refine (parseString_points hp).mono ?_
      rintro u (rfl | ⟨body, hbody, rfl⟩)
      · rw [List.append_nil]
        exact .inl (startsValue_ws hw)
      · obtain ⟨rest, key, hk, -⟩ := hbody.fresh []
        exact .inl ⟨rest, w, _, _, by rw [List.append_assoc], hw, .scalar (.string hk)⟩
  · by_cases hd : (isdigit c || c == chr '-') = true
    · have hsv : parseSimpleValue n (c :: s) = parseNumber n (c :: s) := by
        simp only [parseSimpleValue, charAt, bind, Except.bind, hq, if_false, hd, if_true]
      exact parseNumber_points hw (hsv ▸ h)
    · by_cases ha : isalpha c = true
      · exact parseIdentifier_points hw ha (parseSimpleValue_word ha ▸ h)
      · simp only [parseSimpleValue, charAt, bind, Except.bind, hq, if_false, hd, ha, failAt,
          Bool.false_eq_true, Except.error.injEq, Exit.error.injEq] at h
        subst h
        exact pointsBehind_here (.inl (startsValue_ws hw))

theorem separator_points {n : Nat} {first : Bool} {close c : UInt8} {s : Bytes} {x : Exit}
    (h : separator n first close (c :: s) = .error x) :
    ∃ message, x = .error ⟨message, textOffset n (c :: s)⟩ := by
  unfold separator at h
  split at h
  · cases h
  · simp only [charAt, bind, Except.bind] at h
    split at h
    · cases h
      exact ⟨_, rfl⟩
    · split at h
      · cases h
        exact ⟨_, rfl⟩
      · cases h

/-- The value is read and the loop goes on, or an error points to the place. -/
def LocatesValue (n : Nat) (s : Bytes) : Prop :=
  ∀ (p : Value.Pointer) (K : List StateStackEntry) (R old : Value) (e : ParseError), deref? p R = some old →
    Ends turn ⟨n, s, ⟨.value, p⟩ :: K, R⟩ (.error (.error e)) →
    (∃ w t r v, s = w ++ (t ++ r) ∧ Ws w ∧ Derives t v ∧
      Reaches turn ⟨n, s, ⟨.value, p⟩ :: K, R⟩ ⟨n, r, K, store p v R⟩) ∨
    PointsBehind n s e (StopsInValue e)

def LocatesElements (n : Nat) (s : Bytes) : Prop :=
  ∀ (p : Value.Pointer) (K : List StateStackEntry) (R old : Value) (vs : Array) (e : ParseError),
    deref? p R = some old →
    Ends turn ⟨n, s, ⟨.array, p⟩ :: ⟨.value, p⟩ :: K, store p (.array vs) R⟩ (.error (.error e)) →
    (∃ t r ws, s = t ++ r ∧ Elements vs.isEmpty t ws ∧
      Reaches turn ⟨n, s, ⟨.array, p⟩ :: ⟨.value, p⟩ :: K, store p (.array vs) R⟩
        ⟨n, r, K, store p (.array (vs ++ ws)) R⟩) ∨
    PointsBehind n s e (StopsInElements vs.isEmpty e)

def LocatesMembers (n : Nat) (s : Bytes) : Prop :=
  ∀ (p : Value.Pointer) (K : List StateStackEntry) (R old : Value) (ms : Object) (e : ParseError),
    (ms.map Prod.fst).Nodup → deref? p R = some old →
    Ends turn ⟨n, s, ⟨.object, p⟩ :: ⟨.value, p⟩ :: K, store p (.object ms) R⟩ (.error (.error e)) →
    (∃ t r ns, s = t ++ r ∧ Members ms.isEmpty t ns ∧ ((ms ++ ns).map Prod.fst).Nodup ∧
      Reaches turn ⟨n, s, ⟨.object, p⟩ :: ⟨.value, p⟩ :: K, store p (.object ms) R⟩
        ⟨n, r, K, store p (.object (ms ++ ns)) R⟩) ∨
    PointsBehind n s e (StopsInMembers ms.isEmpty (ms.map Prod.fst) e)

variable {n : Nat} {s : Bytes}

/-- A loop that ends with an error in this round ends with that error. -/
theorem error_of_turn {start : Parser} {e e' : ParseError} (hturn : turn start = .done (.error (.error e')))
    (h : Ends turn start (.error (.error e))) : e = e' := by
  have := h.unique (ends_done hturn)
  simpa using this

theorem ends_of_white {w : Bytes} {entry : StateStackEntry} {K : List StateStackEntry} {R : Value}
    {e : ParseError} {P : Bytes → Prop} (hw : Ws w) (hP : P w)
    (h : Ends turn ⟨n, w, entry :: K, R⟩ (.error (.error e))) : PointsBehind n w e P := by
  obtain rfl := error_of_turn (turn_end hw) h
  exact ⟨w, [], by rw [List.append_nil], rfl, hP⟩

/-- In front of an element the array goes on to it, or fails where the separator is due. -/
theorem element_start {p : Value.Pointer} {R old : Value} (hd : deref? p R = some old) (vs : Array)
    (K : List StateStackEntry) {w u : Bytes} {c : UInt8} (hw : Ws w) (hc : isspace c = false)
    (hclose : c ≠ chr ']') :
    (∃ sep r, w ++ c :: u = sep ++ r ∧ Separator vs.isEmpty sep ∧
      turn ⟨n, w ++ c :: u, ⟨.array, p⟩ :: K, store p (.array vs) R⟩ =
        .next ⟨n, r, ⟨.value, p ++ [.index vs.length]⟩ :: ⟨.array, p⟩ :: K,
          store p (.array (vs ++ [Value.null])) R⟩) ∨
    ∃ message, turn ⟨n, w ++ c :: u, ⟨.array, p⟩ :: K, store p (.array vs) R⟩ =
      .done (.error (.error ⟨message, textOffset n (c :: u)⟩)) := by
  have hvs := Value.deref?_store hd (.array vs)
  rw [turn_eq hw hc, handle_array_element hvs hclose]
  cases hsep : separator n vs.isEmpty (chr ']') (c :: u) with
  | error x =>
    obtain ⟨message, rfl⟩ := separator_points hsep
    exact .inr ⟨message, rfl⟩
  | ok r =>
    obtain ⟨sep, hsep', hr⟩ := separator_ok hw hsep
    exact .inl ⟨sep, r, hr, hsep', by simp only [Value.store_store hd]⟩

theorem locatesElements (hv : ∀ s', s'.length ≤ s.length → LocatesValue n s')
    (he : ∀ s', s'.length < s.length → LocatesElements n s') : LocatesElements n s := by
  intro p K R old vs e hd hends
  obtain ⟨w, s', hw, rfl, hs'⟩ := split_ws s
  cases s' with
  | nil =>
    rw [List.append_nil] at hends ⊢
    exact .inr (ends_of_white hw (.inl (startsElements_close hw)) hends)
  | cons c s' =>
    have hc : isspace c = false := hs' c rfl
    by_cases hclose : c = chr ']'
    · -- the closing bracket
      subst hclose
      refine .inl ⟨w ++ [chr ']'], s', [], by simp, .close hw, .head ?_ (.refl _)⟩
      rw [turn_eq hw hc, handle_array_close, List.append_nil]
    · rcases element_start (n := n) (u := s') hd vs (⟨.value, p⟩ :: K) hw hc hclose with
        ⟨sep, s₁, hs₁, hsep, hturn⟩ | ⟨message, hturn⟩
      swap
      · obtain rfl := error_of_turn hturn hends
        exact .inr (pointsBehind_here (.inl (startsElements_close hw)))
      -- an element is due at `s₁`
      have hlen : s₁.length ≤ (w ++ c :: s').length := by
        rw [hs₁, List.length_append]
        omega
      rw [hs₁] at hturn hends ⊢
      have hends₁ := (ends_next hturn _).1 hends
      rcases hv s₁ hlen (p ++ [.index vs.length]) (⟨.array, p⟩ :: ⟨.value, p⟩ :: K) _ .null e
        (deref?_element hd vs) hends₁ with ⟨w₁, t, r, v, rfl, hw₁, ht, hreach⟩ | hpoints
      swap
      · exact .inr (hpoints.mono fun u hu => hu.element hsep)
      -- and the others behind it
      rw [store_element hd] at hreach
      have hr : r.length < (w ++ c :: s').length := by
        obtain ⟨d, t', rfl, -, -⟩ := derives_head ht
        rw [hs₁]
        simp only [List.length_append, List.length_cons]
        omega
      have hvs' : (vs ++ [v]).isEmpty = false := by simp
      have hsep₁ := hsep.append_ws hw₁
      rw [← List.append_assoc, ← List.append_assoc]
      rcases he r hr p K R old (vs ++ [v]) e hd ((hreach.ends_iff _).1 hends₁) with
        ⟨t', r', ws, rfl, ht', hreach'⟩ | hpoints
      · rw [hvs'] at ht'
        rw [List.append_assoc, List.singleton_append] at hreach'
        refine .inl ⟨sep ++ w₁ ++ t ++ t', r', v :: ws, by simp, .item hsep₁ ht ht', ?_⟩
        simpa only [List.append_assoc] using Reaches.head hturn (hreach.trans hreach')
      · rw [hvs'] at hpoints
        exact .inr (hpoints.mono fun u hu => hu.later hsep₁ ht)

theorem OpenBody.startsKey {body w : Bytes} (h : OpenBody body) (hw : Ws w) (keys : List Bytes) :
    StartsKey keys (w ++ chr '"' :: body) := by
  obtain ⟨rest, key, hk, hnew⟩ := h.fresh keys
  exact ⟨rest ++ [chr ':'], w, _, key, [], by simp, hw, hk, hnew, by simp [Ws]⟩

theorem startsKey_ws {w : Bytes} (hw : Ws w) (keys : List Bytes) : StartsKey keys w := by
  obtain ⟨k, key, hk, hnew⟩ := exists_fresh_key keys
  exact ⟨_, w, k, key, [], rfl, hw, hk, hnew, by simp [Ws]⟩

/-- Where a key fails: before it, inside it, or behind it where the colon is due. -/
theorem key_points {p : Value.Pointer} {R old : Value} (hd : deref? p R = some old) (ms : Object)
    {K : List StateStackEntry} {e : ParseError}
    (h : turn ⟨n, s, ⟨.objectKey, p⟩ :: K, store p (.object ms) R⟩ = .done (.error (.error e))) :
    PointsBehind n s e (StartsKey (ms.map Prod.fst)) := by
  have hms := Value.deref?_store hd (.object ms)
  obtain ⟨w, s', hw, rfl, hs'⟩ := split_ws s
  cases s' with
  | nil =>
    rw [List.append_nil] at h ⊢
    exact ends_of_white hw (startsKey_ws hw _) (ends_done h)
  | cons c s' =>
    rw [turn_eq hw (hs' c rfl), handle_objectKey hms] at h
    cases hkey : parseString n (c :: s') with
    | error x =>
      rw [hkey] at h
      cases h
      refine (parseString_points hkey).mono ?_
      rintro u (rfl | ⟨body, hbody, rfl⟩)
      · rw [List.append_nil]
        exact startsKey_ws hw _
      · exact hbody.startsKey hw _
    | ok x =>
      obtain ⟨key, s₂⟩ := x
      obtain ⟨k, hk, hpos⟩ := parseString_ok hkey
      rw [hkey] at h
      simp only [] at h
      cases hdup : Object.contains key ms with
      | true =>
        simp only [hdup, if_true] at h
        cases h
        exact pointsBehind_here (startsKey_ws hw _)
      | false =>
        have hnew : key ∉ ms.map Prod.fst := by
          rw [← Object.contains_iff, hdup]
          decide
        obtain ⟨w₁, s₃, hw₁, rfl, hs₃⟩ := split_ws s₂
        rw [skipWhitespace_ws hw₁ hs₃] at h
        by_cases hcolon : s₃.head? = some (chr ':')
        · simp only [hdup, hcolon, ne_eq, not_true_eq_false, Bool.false_eq_true, if_false] at h
          cases h
        · simp only [hdup, hcolon, ne_eq, not_false_eq_true, Bool.false_eq_true, if_false, if_true] at h
          cases h
          rw [hpos, ← List.append_assoc, ← List.append_assoc]
          refine pointsBehind_here ⟨[chr ':'], w, k, key, w₁, ?_, hw, hk, hnew, hw₁⟩
          simp only [List.append_assoc]

/-- In front of a member the object goes on to its value, or fails in the separator or in the key. -/
theorem member_start {p : Value.Pointer} {R old : Value} (hd : deref? p R = some old) {ms : Object}
    (hnd : (ms.map Prod.fst).Nodup) (K : List StateStackEntry) {w u : Bytes} {c : UInt8} {e : ParseError}
    (hw : Ws w) (hc : isspace c = false) (hclose : c ≠ chr '}')
    (hends : Ends turn ⟨n, w ++ c :: u, ⟨.object, p⟩ :: K, store p (.object ms) R⟩ (.error (.error e))) :
    (∃ sep k key w₁ r, w ++ c :: u = sep ++ k ++ w₁ ++ [chr ':'] ++ r ∧ Separator ms.isEmpty sep ∧
      StringToken k key ∧ key ∉ ms.map Prod.fst ∧ Ws w₁ ∧
      Reaches turn ⟨n, w ++ c :: u, ⟨.object, p⟩ :: K, store p (.object ms) R⟩
        ⟨n, r, ⟨.value, p ++ [.key key]⟩ :: ⟨.object, p⟩ :: K, store p (.object (Object.index key ms)) R⟩) ∨
    PointsBehind n (w ++ c :: u) e (StopsInMembers ms.isEmpty (ms.map Prod.fst) e) := by
  have hms := Value.deref?_store hd (.object ms)
  have hturn := turn_eq (n := n) (s := u) (K := K) (e := ⟨.object, p⟩) (R := store p (.object ms) R) hw hc
  rw [handle_object_member hms hclose] at hturn
  cases hsep : separator n ms.isEmpty (chr '}') (c :: u) with
  | error x =>
    obtain ⟨message, rfl⟩ := separator_points hsep
    rw [hsep] at hturn
    obtain rfl := error_of_turn hturn hends
    exact .inr (pointsBehind_here (.inl (startsMembers_close hnd hw)))
  | ok s₁ =>
    obtain ⟨sep, hsep', hs₁⟩ := separator_ok hw hsep
    rw [hsep] at hturn
    have hends₁ := (ends_next hturn _).1 hends
    rcases readsKey (n := n) (s := s₁) hd ms (⟨.object, p⟩ :: K) with
      ⟨w₀, k, key, w₁, s₂, rfl, hw₀, hk, hnew, hw₁, hkey⟩ | ⟨e', hkey⟩
    · exact .inl ⟨sep ++ w₀, k, key, w₁, s₂, by rw [hs₁]; simp, hsep'.append_ws hw₀, hk, hnew, hw₁,
        .head hturn (.head hkey (.refl _))⟩
    · obtain rfl := error_of_turn hkey hends₁
      rw [hs₁]
      exact .inr ((key_points hd ms hkey).mono fun u hu => .inl (hu.member hnd hsep'))

theorem locatesMembers (hv : ∀ s', s'.length ≤ s.length → LocatesValue n s')
    (hm : ∀ s', s'.length < s.length → LocatesMembers n s') : LocatesMembers n s := by
  intro p K R old ms e hnd hd hends
  obtain ⟨w, s', hw, rfl, hs'⟩ := split_ws s
  cases s' with
  | nil =>
    rw [List.append_nil] at hends ⊢
    exact .inr (ends_of_white hw (.inl (startsMembers_close hnd hw)) hends)
  | cons c s' =>
    have hc : isspace c = false := hs' c rfl
    by_cases hclose : c = chr '}'
    · -- the closing bracket
      subst hclose
      refine .inl ⟨w ++ [chr '}'], s', [], by simp, .close hw, by rwa [List.append_nil],
        .head ?_ (.refl _)⟩
      rw [turn_eq hw hc, handle_object_close, List.append_nil]
    · rcases member_start (n := n) (u := s') hd hnd (⟨.value, p⟩ :: K) hw hc hclose hends with
        ⟨sep, k, key, w₁, s₂, hs₂, hsep, hk, hnew, hw₁, hstart⟩ | hpoints
      swap
      · exact .inr hpoints
      -- a value is due at `s₂`
      have hlen : s₂.length < (w ++ c :: s').length := by
        rw [hs₂]
        simp only [List.length_append, List.length_cons]
        omega
      have hends₂ := (hstart.ends_iff _).1 hends
      rw [hs₂] at hstart ⊢
      rcases hv s₂ (Nat.le_of_lt hlen) (p ++ [.key key]) (⟨.object, p⟩ :: ⟨.value, p⟩ :: K) _ .null e
        (deref?_member hd hnew) hends₂ with ⟨w₂, t, r, v, rfl, hw₂, ht, hreach⟩ | hpoints
      swap
      · exact .inr (hpoints.mono fun u hu => hu.member hnd hsep hk hnew hw₁)
      -- and the others behind it
      rw [store_member hd hnew] at hreach
      have hr : r.length < (w ++ c :: s').length := by
        simp only [List.length_append] at hlen ⊢
        omega
      have hms' : (ms ++ [(key, v)]).isEmpty = false := by simp
      have hrest : sep ++ k ++ w₁ ++ [chr ':'] ++ (w₂ ++ (t ++ r)) = sep ++ k ++ w₁ ++ [chr ':'] ++ (w₂ ++ t) ++ r := by
        simp only [List.append_assoc]
      rcases hm r hr p K R old (ms ++ [(key, v)]) e (keys_nodup_append hnd hnew v) hd
        ((hreach.ends_iff _).1 hends₂) with ⟨t', r', ns, rfl, ht', hnd', hreach'⟩ | hpoints
      · rw [hms'] at ht'
        rw [List.append_assoc, List.singleton_append] at hreach' hnd'
        exact .inl ⟨sep ++ k ++ w₁ ++ chr ':' :: w₂ ++ t ++ t', r', (key, v) :: ns, by simp,
          .item hsep hk hw₁ hw₂ ht ht', hnd', hstart.trans (hreach.trans hreach')⟩
      · rw [hms', List.map_append, List.map_singleton] at hpoints
        rw [hrest]
        exact .inr (hpoints.mono fun u hu => hu.later hsep hk hnew hw₁ hw₂ ht)

theorem locatesValue_step (he : ∀ s', s'.length < s.length → LocatesElements n s')
    (hm : ∀ s', s'.length < s.length → LocatesMembers n s') : LocatesValue n s := by
  intro p K R old e hd hends
  obtain ⟨w, s', hw, rfl, hs'⟩ := split_ws s
  cases s' with
  | nil =>
    rw [List.append_nil] at hends ⊢
    exact .inr (ends_of_white hw (.inl (startsValue_ws hw)) hends)
  | cons c s' =>
    have hc : isspace c = false := hs' c rfl
    have hlen : s'.length < (w ++ c :: s').length := by
      simp only [List.length_append, List.length_cons]
      omega
    have hturn := turn_eq (n := n) (s := s') (e := ⟨.value, p⟩) (K := K) (R := R) hw hc
    by_cases hobj : c = chr '{'
    · subst hobj
      rw [handle_value_object hd] at hturn
      rcases hm s' hlen p K R old [] e (by simp) hd ((ends_next hturn _).1 hends) with
        ⟨t, r, ms, rfl, ht, hnd, hreach⟩ | hpoints
      · exact .inl ⟨w, chr '{' :: t, r, .object ms, rfl, hw, .object ht (by simpa using hnd),
          .head hturn hreach⟩
      · have := hpoints.mono (a := w ++ [chr '{']) fun u hu => hu.value hw
        exact .inr (by rwa [List.append_assoc] at this)
    · by_cases harr : c = chr '['
      · subst harr
        rw [handle_value_array hd] at hturn
        rcases he s' hlen p K R old [] e hd ((ends_next hturn _).1 hends) with
          ⟨t, r, vs, rfl, ht, hreach⟩ | hpoints
        · exact .inl ⟨w, chr '[' :: t, r, .array vs, rfl, hw, .array ht, .head hturn hreach⟩
        · have := hpoints.mono (a := w ++ [chr '[']) fun u hu => hu.value hw
          exact .inr (by rwa [List.append_assoc] at this)
      · rw [handle_value_scalar hd hobj harr] at hturn
        cases parseSimpleValue_outcome n c s' with
        | scalar ht hpos hok =>
          rw [hok] at hturn
          exact .inl ⟨w, _, _, _, by rw [hpos], hw, .scalar ht, .head hturn (.refl _)⟩
        | error herr =>
          rw [herr] at hturn
          obtain rfl := error_of_turn hturn hends
          exact .inr (parseSimpleValue_points hw herr)
        | throws ht hr hpos hthrow =>
          rw [hthrow] at hturn
          have := hends.unique (ends_done hturn)
          simp at this

theorem locates (n : Nat) (s : Bytes) : LocatesValue n s ∧ LocatesElements n s ∧ LocatesMembers n s := by
  induction hl : s.length using Nat.strongRecOn generalizing s with
  | ind l ih =>
    subst hl
    have he : ∀ s', s'.length < s.length → LocatesElements n s' := fun s' h => (ih _ h s' rfl).2.1
    have hm : ∀ s', s'.length < s.length → LocatesMembers n s' := fun s' h => (ih _ h s' rfl).2.2
    have hvalue : LocatesValue n s := locatesValue_step he hm
    have hv : ∀ s', s'.length ≤ s.length → LocatesValue n s' := by
      intro s' h
      rcases Nat.lt_or_eq_of_le h with h | h
      · exact (ih _ h s' rfl).1
      · exact locatesValue_step (fun s₁ h₁ => he s₁ (h ▸ h₁)) (fun s₁ h₁ => hm s₁ (h ▸ h₁))
    exact ⟨hvalue, locatesElements hv he, locatesMembers hv hm⟩

/-! ## The error of `parse` -/

theorem parse_points {text : Bytes} {e : ParseError} (h : parse text = .error (.error e)) :
    PointsBehind text.length text e fun u => Viable u ∨ WordBehind Viable e u ∧ ¬ Viable u := by
  rw [parse_eq_iff] at h
  rcases (locates text.length text).1 [] [] .null .null e rfl h with
    ⟨w, t, r, v, rfl, hw, ht, hreach⟩ | ⟨u, r, htext, hpos, hstarts | hspoils⟩
  · -- a value is read, and something stands behind it
    obtain ⟨w', r', hw', rfl, hr'⟩ := split_ws r
    have hends := (hreach.ends_iff _).1 h
    cases r' with
    | nil =>
      rw [List.append_nil] at hends
      have := hends.unique (ends_done (turn_finish hw'))
      simp at this
    | cons c r' =>
      obtain rfl := error_of_turn (turn_trailing hw' (hr' c rfl)) hends
      refine ⟨w ++ t ++ w', c :: r', by simp, rfl, .inl ⟨[], v, ?_⟩⟩
      exact parse_text ⟨w, t, w', hw, ht, hw', by rw [List.append_nil]⟩
  · exact ⟨u, r, htext, hpos, .inl hstarts.viable⟩
  · obtain ⟨start, word, hu, hstart, hword, hmessage⟩ := hspoils.word
    exact ⟨u, r, htext, hpos, .inr ⟨⟨start, word, hu, hstart.viable, hword, hmessage⟩, hspoils.not_viable⟩⟩

/-- **What stands before the place of an error is the beginning of a text that `parse` accepts**, but for an
unknown word at its end, which is one of no such text. -/
theorem parse_error_position {text : Bytes} {e : ParseError} (h : parse text = .error (.error e)) :
    e.textPos ≤ text.length ∧ (Viable (text.take e.textPos) ∨
      WordBehind Viable e (text.take e.textPos) ∧ ¬ Viable (text.take e.textPos)) := by
  obtain ⟨u, r, rfl, hpos, hu⟩ := parse_points h
  have hlen : e.textPos = u.length := by
    rw [hpos, textOffset, List.length_append]
    omega
  rw [hlen, List.take_left' rfl, List.length_append]
  exact ⟨Nat.le_add_right _ _, hu⟩

/-- `nope` is reported behind its last letter. -/
theorem parse_error_position_word :
    parse (bytes "[1, nope]") = .error (.error ⟨bytes "Unexpected 'nope'", 8⟩) ∧
      (Viable (bytes "[1, nope") ∨ WordBehind Viable ⟨bytes "Unexpected 'nope'", 8⟩ (bytes "[1, nope") ∧
        ¬ Viable (bytes "[1, nope")) := by
  have hword : parse (bytes "[1, nope]") = .error (.error ⟨bytes "Unexpected 'nope'", 8⟩) :=
    (parse_eq_iff _ _).2 ⟨5, rfl⟩
  exact ⟨hword, (parse_error_position hword).2⟩

end Lsp.Json
