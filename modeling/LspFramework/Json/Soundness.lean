import LspFramework.Json.Refinement

/-!
# What the parser makes of any text

From a state that waits for a value the parser either reads a derived value off the front of the
text, or it leaves: with a `ParseError`, or with an exception where the text traps.  The proof is
by induction on the length of the text, with one lemma for each context the stack can be in.
With `derives_reaches` and `traps_throws` this decides every run of `parse`:

    parse text = .ok v ↔ Text text v                                 (parse_ok_iff)
    (∃ e, parse text = .error (.throws e)) ↔ TextTraps text          (parse_throws_iff)
    parse text ≠ .error (.fault f)                                   (parse_ne_fault)
-/

namespace Lsp.Json

open Chars Loop Lsp.Json.Parser
open Value (deref? store)

/-! ## Leaving without a value -/

/-- The loop ends with a `ParseError`, or with an exception and then `traps` holds. -/
def Fails (start : Parser) (traps : Prop) : Prop :=
  (∃ e, Ends turn start (.error (.error e))) ∨ ((∃ e, Ends turn start (.error (.throws e))) ∧ traps)

theorem Fails.reaches {s s' : Parser} {T T' : Prop} (h : Reaches turn s s') (hT : T' → T)
    (hf : Fails s' T') : Fails s T := by
  rcases hf with ⟨e, he⟩ | ⟨⟨e, he⟩, ht⟩
  · exact .inl ⟨e, (h.ends_iff _).2 he⟩
  · exact .inr ⟨⟨e, (h.ends_iff _).2 he⟩, hT ht⟩

theorem fails_of_error {s : Parser} {e : ParseError} (T : Prop)
    (h : turn s = .done (.error (.error e))) : Fails s T :=
  .inl ⟨e, ends_done h⟩

theorem fails_of_end {n : Nat} {w : Bytes} {e : StateStackEntry} {K : List StateStackEntry} {R : Value}
    (T : Prop) (hw : Ws w) : Fails ⟨n, w, e :: K, R⟩ T :=
  fails_of_error T (turn_end hw)

/-! ## One lemma for each context -/

def ReadsValue (n : Nat) (s : Bytes) : Prop :=
  ∀ (p : Value.Pointer) (K : List StateStackEntry) (R old : Value), deref? p R = some old →
    (∃ w t r v, s = w ++ (t ++ r) ∧ Ws w ∧ Derives t v ∧
      Reaches turn ⟨n, s, ⟨.value, p⟩ :: K, R⟩ ⟨n, r, K, store p v R⟩) ∨
    Fails ⟨n, s, ⟨.value, p⟩ :: K, R⟩ (∃ w t, s = w ++ t ∧ Ws w ∧ Traps t)

def ReadsElements (n : Nat) (s : Bytes) : Prop :=
  ∀ (p : Value.Pointer) (K : List StateStackEntry) (R old : Value) (vs : Array), deref? p R = some old →
    (∃ t r ws, s = t ++ r ∧ Elements vs.isEmpty t ws ∧
      Reaches turn ⟨n, s, ⟨.array, p⟩ :: ⟨.value, p⟩ :: K, store p (.array vs) R⟩
        ⟨n, r, K, store p (.array (vs ++ ws)) R⟩) ∨
    Fails ⟨n, s, ⟨.array, p⟩ :: ⟨.value, p⟩ :: K, store p (.array vs) R⟩ (TrapsElements vs.isEmpty s)

def ReadsMembers (n : Nat) (s : Bytes) : Prop :=
  ∀ (p : Value.Pointer) (K : List StateStackEntry) (R old : Value) (ms : Object),
    (ms.map Prod.fst).Nodup → deref? p R = some old →
    (∃ t r ns, s = t ++ r ∧ Members ms.isEmpty t ns ∧ ((ms ++ ns).map Prod.fst).Nodup ∧
      Reaches turn ⟨n, s, ⟨.object, p⟩ :: ⟨.value, p⟩ :: K, store p (.object ms) R⟩
        ⟨n, r, K, store p (.object (ms ++ ns)) R⟩) ∨
    Fails ⟨n, s, ⟨.object, p⟩ :: ⟨.value, p⟩ :: K, store p (.object ms) R⟩
      (TrapsMembers ms.isEmpty (ms.map Prod.fst) s)

variable {n : Nat} {s : Bytes}

/-- An element up to its first byte, from the state `array` to the state that waits for the element. -/
theorem readsElementStart {p : Value.Pointer} {R old : Value} (hd : deref? p R = some old) (vs : Array)
    (K : List StateStackEntry) {w u : Bytes} {c : UInt8} (hw : Ws w) (hc : isspace c = false)
    (hclose : c ≠ chr ']') :
    (∃ sep r, w ++ c :: u = sep ++ r ∧ Separator vs.isEmpty sep ∧
      turn ⟨n, w ++ c :: u, ⟨.array, p⟩ :: K, store p (.array vs) R⟩ =
        .next ⟨n, r, ⟨.value, p ++ [.index vs.length]⟩ :: ⟨.array, p⟩ :: K,
          store p (.array (vs ++ [Value.null])) R⟩) ∨
    ∀ T, Fails ⟨n, w ++ c :: u, ⟨.array, p⟩ :: K, store p (.array vs) R⟩ T := by
  have hvs := Value.deref?_store hd (.array vs)
  cases hsep : separator n vs.isEmpty (chr ']') (c :: u) with
  | error x =>
    obtain ⟨e, rfl⟩ := separator_error hsep
    refine .inr fun T => fails_of_error (e := e) T ?_
    rw [turn_eq hw hc, handle_array_element hvs hclose, hsep]
  | ok r =>
    obtain ⟨sep, hsep', hr⟩ := separator_ok hw hsep
    refine .inl ⟨sep, r, hr, hsep', ?_⟩
    rw [turn_eq hw hc, handle_array_element hvs hclose, hsep]
    simp only [Value.store_store hd]

theorem readsElements (hv : ∀ s', s'.length ≤ s.length → ReadsValue n s')
    (he : ∀ s', s'.length < s.length → ReadsElements n s') : ReadsElements n s := by
  intro p K R old vs hd
  obtain ⟨w, s', hw, rfl, hs'⟩ := split_ws s
  cases s' with
  | nil => exact .inr (fails_of_end _ (by rwa [List.append_nil]))
  | cons c s' =>
    have hc : isspace c = false := hs' c rfl
    by_cases hclose : c = chr ']'
    · -- the closing bracket
      subst hclose
      refine .inl ⟨w ++ [chr ']'], s', [], by simp, .close hw, .head ?_ (.refl _)⟩
      rw [turn_eq hw hc, handle_array_close, List.append_nil]
    · rcases readsElementStart (n := n) (u := s') hd vs (⟨.value, p⟩ :: K) hw hc hclose with
        ⟨sep, s₁, hs₁, hsep, hturn⟩ | hfail
      swap
      · exact .inr (hfail _)
      -- an element is due at `s₁`
      have hlen : s₁.length ≤ (w ++ c :: s').length := by
        rw [hs₁, List.length_append]
        omega
      rw [hs₁] at hturn ⊢
      rcases hv s₁ hlen (p ++ [.index vs.length]) (⟨.array, p⟩ :: ⟨.value, p⟩ :: K) _ .null
        (deref?_element hd vs) with ⟨w₁, t, r, v, rfl, hw₁, ht, hreach⟩ | hfail
      · rw [store_element hd] at hreach
        have hr : r.length < (w ++ c :: s').length := by
          obtain ⟨d, t', rfl, -, -⟩ := derives_head ht
          rw [hs₁]
          simp only [List.length_append, List.length_cons]
          omega
        have hvs' : (vs ++ [v]).isEmpty = false := by simp
        rcases he r hr p K R old (vs ++ [v]) hd with ⟨t', r', ws, rfl, ht', hreach'⟩ | hfail
        · rw [hvs'] at ht'
          rw [List.append_assoc, List.singleton_append] at hreach'
          exact .inl ⟨sep ++ w₁ ++ t ++ t', r', v :: ws, by simp, .item (hsep.append_ws hw₁) ht ht',
            .head hturn (hreach.trans hreach')⟩
        · rw [hvs'] at hfail
          refine .inr (hfail.reaches (.head hturn hreach) ?_)
          intro htr
          have := TrapsElements.later (hsep.append_ws hw₁) ht htr
          simpa only [List.append_assoc] using this
      · refine .inr (hfail.reaches (.head hturn (.refl _)) ?_)
        rintro ⟨w₁, t, rfl, hw₁, ht⟩
        have := TrapsElements.here (hsep.append_ws hw₁) ht
        simpa only [List.append_assoc] using this

/-- The key of a member, from the state `objectKey` to the state that waits for its value. -/
theorem readsKey {p : Value.Pointer} {R old : Value} (hd : deref? p R = some old) (ms : Object)
    (K : List StateStackEntry) :
    (∃ w k key w₁ r, s = w ++ (k ++ (w₁ ++ chr ':' :: r)) ∧ Ws w ∧ StringToken k key ∧
      key ∉ ms.map Prod.fst ∧ Ws w₁ ∧
      turn ⟨n, s, ⟨.objectKey, p⟩ :: K, store p (.object ms) R⟩ =
        .next ⟨n, r, ⟨.value, p ++ [.key key]⟩ :: K, store p (.object (Object.index key ms)) R⟩) ∨
    ∃ e, turn ⟨n, s, ⟨.objectKey, p⟩ :: K, store p (.object ms) R⟩ = .done (.error (.error e)) := by
  have hms := Value.deref?_store hd (.object ms)
  obtain ⟨w, s', hw, rfl, hs'⟩ := split_ws s
  cases s' with
  | nil => exact .inr ⟨_, by rw [List.append_nil]; exact turn_end hw⟩
  | cons c s' =>
    have hc : isspace c = false := hs' c rfl
    rw [turn_eq hw hc, handle_objectKey hms]
    cases hkey : parseString n (c :: s') with
    | error x =>
      obtain ⟨e, rfl⟩ := parseString_error hkey
      exact .inr ⟨e, rfl⟩
    | ok x =>
      obtain ⟨key, s₂⟩ := x
      obtain ⟨k, hk, hpos⟩ := parseString_ok hkey
      simp only []
      cases hdup : Object.contains key ms with
      | true => exact .inr ⟨_, rfl⟩
      | false =>
        have hnew : key ∉ ms.map Prod.fst := by
          rw [← Object.contains_iff, hdup]
          decide
        obtain ⟨w₁, s₃, hw₁, rfl, hs₃⟩ := split_ws s₂
        rw [skipWhitespace_ws hw₁ hs₃]
        by_cases hcolon : s₃.head? = some (chr ':')
        · obtain ⟨r, rfl⟩ := List.head?_eq_some_iff.mp hcolon
          refine .inl ⟨w, k, key, w₁, r, by rw [hpos], hw, hk, hnew, hw₁, ?_⟩
          simp only [hcolon, ne_eq, not_true_eq_false, if_false, Bool.false_eq_true, List.tail_cons,
            Value.store_store hd]
        · refine .inr ⟨⟨bytes "Expected ':'", textOffset n s₃⟩, ?_⟩
          simp only [hcolon, ne_eq, not_false_eq_true, if_true, Bool.false_eq_true, if_false, failAt]

theorem keys_nodup_append {ms : Object} (hnd : (ms.map Prod.fst).Nodup) {key : Bytes}
    (hnew : key ∉ ms.map Prod.fst) (v : Value) : ((ms ++ [(key, v)]).map Prod.fst).Nodup := by
  rw [List.map_append, List.map_singleton, List.nodup_append]
  refine ⟨hnd, by simp, ?_⟩
  intro a ha b hb hab
  rw [hab, List.mem_singleton.mp hb] at ha
  exact hnew ha

/-- A member up to the colon, from the state `object` to the state that waits for its value. -/
theorem readsMemberStart {p : Value.Pointer} {R old : Value} (hd : deref? p R = some old) (ms : Object)
    (K : List StateStackEntry) {w u : Bytes} {c : UInt8} (hw : Ws w) (hc : isspace c = false)
    (hclose : c ≠ chr '}') :
    (∃ sep k key w₁ r, w ++ c :: u = sep ++ (k ++ (w₁ ++ chr ':' :: r)) ∧ Separator ms.isEmpty sep ∧
      StringToken k key ∧ key ∉ ms.map Prod.fst ∧ Ws w₁ ∧
      Reaches turn ⟨n, w ++ c :: u, ⟨.object, p⟩ :: K, store p (.object ms) R⟩
        ⟨n, r, ⟨.value, p ++ [.key key]⟩ :: ⟨.object, p⟩ :: K, store p (.object (Object.index key ms)) R⟩) ∨
    ∀ T, Fails ⟨n, w ++ c :: u, ⟨.object, p⟩ :: K, store p (.object ms) R⟩ T := by
  have hms := Value.deref?_store hd (.object ms)
  cases hsep : separator n ms.isEmpty (chr '}') (c :: u) with
  | error x =>
    obtain ⟨e, rfl⟩ := separator_error hsep
    refine .inr fun T => fails_of_error (e := e) T ?_
    rw [turn_eq hw hc, handle_object_member hms hclose, hsep]
  | ok s₁ =>
    obtain ⟨sep, hsep', hs₁⟩ := separator_ok hw hsep
    have hturn : turn ⟨n, w ++ c :: u, ⟨.object, p⟩ :: K, store p (.object ms) R⟩ =
        .next ⟨n, s₁, ⟨.objectKey, p⟩ :: ⟨.object, p⟩ :: K, store p (.object ms) R⟩ := by
      rw [turn_eq hw hc, handle_object_member hms hclose, hsep]
    rcases readsKey (n := n) (s := s₁) hd ms (⟨.object, p⟩ :: K) with
      ⟨w₀, k, key, w₁, r, rfl, hw₀, hk, hnew, hw₁, hturn'⟩ | ⟨e, he⟩
    · exact .inl ⟨sep ++ w₀, k, key, w₁, r, by rw [hs₁, List.append_assoc], hsep'.append_ws hw₀, hk, hnew,
        hw₁, .head hturn (.head hturn' (.refl _))⟩
    · exact .inr fun T => (fails_of_error T he).reaches (.head hturn (.refl _)) id

theorem readsMembers (hv : ∀ s', s'.length ≤ s.length → ReadsValue n s')
    (hm : ∀ s', s'.length < s.length → ReadsMembers n s') : ReadsMembers n s := by
  intro p K R old ms hnd hd
  obtain ⟨w, s', hw, rfl, hs'⟩ := split_ws s
  cases s' with
  | nil => exact .inr (fails_of_end _ (by rwa [List.append_nil]))
  | cons c s' =>
    have hc : isspace c = false := hs' c rfl
    by_cases hclose : c = chr '}'
    · -- the closing bracket
      subst hclose
      refine .inl ⟨w ++ [chr '}'], s', [], by simp, .close hw, by rwa [List.append_nil],
        .head ?_ (.refl _)⟩
      rw [turn_eq hw hc, handle_object_close, List.append_nil]
    · rcases readsMemberStart (n := n) (u := s') hd ms (⟨.value, p⟩ :: K) hw hc hclose with
        ⟨sep, k, key, w₁, s₂, hs₂, hsep, hk, hnew, hw₁, hstart⟩ | hfail
      swap
      · exact .inr (hfail _)
      -- a value is due at `s₂`
      have hlen : s₂.length < (w ++ c :: s').length := by
        rw [hs₂]
        simp only [List.length_append, List.length_cons]
        omega
      rw [hs₂] at hstart ⊢
      rcases hv s₂ (Nat.le_of_lt hlen) (p ++ [.key key]) (⟨.object, p⟩ :: ⟨.value, p⟩ :: K) _ .null
        (deref?_member hd hnew) with ⟨w₂, t, r, v, rfl, hw₂, ht, hreach⟩ | hfail
      · rw [store_member hd hnew] at hreach
        have hr : r.length < (w ++ c :: s').length := by
          simp only [List.length_append] at hlen ⊢
          omega
        have hms' : (ms ++ [(key, v)]).isEmpty = false := by simp
        rcases hm r hr p K R old (ms ++ [(key, v)]) (keys_nodup_append hnd hnew v) hd with
          ⟨t', r', ns, rfl, ht', hnd', hreach'⟩ | hfail
        · rw [hms'] at ht'
          rw [List.append_assoc, List.singleton_append] at hreach' hnd'
          exact .inl ⟨sep ++ k ++ w₁ ++ chr ':' :: w₂ ++ t ++ t', r', (key, v) :: ns, by simp,
            .item hsep hk hw₁ hw₂ ht ht', hnd', hstart.trans (hreach.trans hreach')⟩
        · rw [hms', List.map_append, List.map_singleton] at hfail
          refine .inr (hfail.reaches (hstart.trans hreach) ?_)
          intro htr
          have := TrapsMembers.later hsep hk hnew hw₁ hw₂ ht htr
          simpa only [List.append_assoc, List.cons_append] using this
      · refine .inr (hfail.reaches hstart ?_)
        rintro ⟨w₂, t, rfl, hw₂, ht⟩
        have := TrapsMembers.here hsep hk hnew hw₁ hw₂ ht
        simpa only [List.append_assoc, List.cons_append] using this

theorem readsValue_step (he : ∀ s', s'.length < s.length → ReadsElements n s')
    (hm : ∀ s', s'.length < s.length → ReadsMembers n s') : ReadsValue n s := by
  intro p K R old hd
  obtain ⟨w, s', hw, rfl, hs'⟩ := split_ws s
  cases s' with
  | nil => exact .inr (fails_of_end _ (by rwa [List.append_nil]))
  | cons c s' =>
    have hc : isspace c = false := hs' c rfl
    have hlen : s'.length < (w ++ c :: s').length := by
      simp only [List.length_append, List.length_cons]
      omega
    by_cases hobj : c = chr '{'
    · subst hobj
      have hturn := turn_eq (n := n) (s := s') (e := ⟨.value, p⟩) (K := K) (R := R) hw hc
      rw [handle_value_object hd] at hturn
      rcases hm s' hlen p K R old [] (by simp) hd with ⟨t, r, ms, rfl, ht, hnd, hreach⟩ | hfail
      · exact .inl ⟨w, chr '{' :: t, r, .object ms, rfl, hw, .object ht (by simpa using hnd),
          .head hturn hreach⟩
      · exact .inr (hfail.reaches (.head hturn (.refl _)) fun htr => ⟨w, _, rfl, hw, .object htr⟩)
    · by_cases harr : c = chr '['
      · subst harr
        have hturn := turn_eq (n := n) (s := s') (e := ⟨.value, p⟩) (K := K) (R := R) hw hc
        rw [handle_value_array hd] at hturn
        rcases he s' hlen p K R old [] hd with ⟨t, r, vs, rfl, ht, hreach⟩ | hfail
        · exact .inl ⟨w, chr '[' :: t, r, .array vs, rfl, hw, .array ht, .head hturn hreach⟩
        · exact .inr (hfail.reaches (.head hturn (.refl _)) fun htr => ⟨w, _, rfl, hw, .array htr⟩)
      · have hturn := turn_eq (n := n) (s := s') (e := ⟨.value, p⟩) (K := K) (R := R) hw hc
        rw [handle_value_scalar hd hobj harr] at hturn
        cases parseSimpleValue_outcome n c s' with
        | scalar ht hpos hok =>
          rw [hok] at hturn
          exact .inl ⟨w, _, _, _, by rw [hpos], hw, .scalar ht, .head hturn (.refl _)⟩
        | error herr =>
          rw [herr] at hturn
          exact .inr (fails_of_error _ hturn)
        | throws ht hr hpos hthrow =>
          rw [hthrow] at hturn
          exact .inr (.inr ⟨⟨_, ends_done hturn⟩, w, _, by rw [hpos], hw, .number ht hr⟩)

theorem reads (n : Nat) (s : Bytes) : ReadsValue n s ∧ ReadsElements n s ∧ ReadsMembers n s := by
  induction hl : s.length using Nat.strongRecOn generalizing s with
  | ind l ih =>
    subst hl
    have he : ∀ s', s'.length < s.length → ReadsElements n s' := fun s' h => (ih _ h s' rfl).2.1
    have hm : ∀ s', s'.length < s.length → ReadsMembers n s' := fun s' h => (ih _ h s' rfl).2.2
    have hvalue : ReadsValue n s := readsValue_step he hm
    have hv : ∀ s', s'.length ≤ s.length → ReadsValue n s' := by
      intro s' h
      rcases Nat.lt_or_eq_of_le h with h | h
      · exact (ih _ h s' rfl).1
      · exact readsValue_step (fun s₁ h₁ => he s₁ (h ▸ h₁)) (fun s₁ h₁ => hm s₁ (h ▸ h₁))
    exact ⟨hvalue, readsElements hv he, readsMembers hv hm⟩

/-! ## Every run of `parse` -/

/-- **A run of `parse` ends with the derived value, a `ParseError`, or the exception of a trap.** -/
theorem parse_outcome (text : Bytes) :
    (∃ v, parse text = .ok v ∧ Text text v) ∨ (∃ e, parse text = .error (.error e)) ∨
      ((∃ e, parse text = .error (.throws e)) ∧ TextTraps text) := by
  simp only [parse_eq_iff]
  rcases (reads text.length text).1 [] [] .null .null rfl with
    ⟨w, t, r, v, rfl, hw, ht, hreach⟩ | ⟨e, he⟩ | ⟨he, w, t, rfl, hw, ht⟩
  · obtain ⟨w', r', hw', rfl, hr'⟩ := split_ws r
    cases r' with
    | nil =>
      refine .inl ⟨v, (hreach.ends_iff _).2 (ends_done (turn_finish ?_)), w, t, w', hw, ht, hw', by simp⟩
      rwa [List.append_nil]
    | cons c r' =>
      exact .inr (.inl ⟨_, (hreach.ends_iff _).2 (ends_done (turn_trailing hw' (hr' c rfl)))⟩)
  · exact .inr (.inl ⟨e, he⟩)
  · exact .inr (.inr ⟨he, w, t, hw, ht, rfl⟩)

theorem parse_text {text : Bytes} {v : Value} (h : Text text v) : parse text = .ok v := by
  obtain ⟨w, t, w', hw, ht, hw', rfl⟩ := h
  rw [parse_eq_iff]
  have hreach := derives_reaches ht (w ++ t ++ w').length w w' [] [] .null .null hw (follows_ws hw') rfl
  rw [← List.append_assoc] at hreach
  exact (hreach.ends_iff _).2 (ends_done (turn_finish hw'))

/-- **`parse` accepts the texts of the grammar**, with the value they derive. -/
theorem parse_ok_iff (text : Bytes) (v : Value) : parse text = .ok v ↔ Text text v := by
  refine ⟨fun h => ?_, parse_text⟩
  rcases parse_outcome text with ⟨v', hv', ht⟩ | ⟨e, he⟩ | ⟨⟨e, he⟩, -⟩
  · rw [h] at hv'
    cases hv'
    exact ht
  · simp [h] at he
  · simp [h] at he

theorem parse_throws_iff (text : Bytes) :
    (∃ e, parse text = .error (.throws e)) ↔ TextTraps text := by
  constructor
  · rintro ⟨e, h⟩
    rcases parse_outcome text with ⟨v', hv', -⟩ | ⟨e', he⟩ | ⟨-, ht⟩
    · simp [h] at hv'
    · simp [h] at he
    · exact ht
  · rintro ⟨w, t, hw, ht, rfl⟩
    obtain ⟨e, he⟩ := traps_throws ht (w ++ t).length w [] [] .null .null hw rfl
    exact ⟨e, (parse_eq_iff _ _).2 he⟩

theorem parse_ne_fault (text : Bytes) (f : Fault) : parse text ≠ .error (.fault f) := by
  intro h
  rcases parse_outcome text with ⟨v', hv', -⟩ | ⟨e', he⟩ | ⟨⟨e, he⟩, -⟩
  · simp [h] at hv'
  · simp [h] at he
  · simp [h] at he

/-- **The parser accepts exactly the grammar**, and neither reads behind the end of the text nor
fails an assertion on the way. -/
theorem parse_refines_grammar (text : Bytes) :
    (∀ v, parse text = .ok v ↔ Text text v) ∧ ∀ f, parse text ≠ .error (.fault f) :=
  ⟨parse_ok_iff text, parse_ne_fault text⟩

/-- **`parse` returns unless the text traps.** -/
theorem parse_returns_iff (text : Bytes) :
    ((∃ v, parse text = .ok v) ∨ ∃ e, parse text = .error (.error e)) ↔ ¬TextTraps text := by
  rw [← parse_throws_iff]
  constructor
  · rintro (⟨v, hv⟩ | ⟨e, he⟩) ⟨x, hx⟩
    · simp [hv] at hx
    · simp [he] at hx
  · intro h
    rcases parse_outcome text with ⟨v, hv, -⟩ | he | ⟨hx, -⟩
    · exact .inl ⟨v, hv⟩
    · exact .inr he
    · exact absurd hx h

theorem textTraps_of_number {t : Bytes} {e : StdException} (h : NumberToken t (.error e)) : TextTraps t :=
  ⟨[], t, by simp [Ws], by simpa using Traps.number h (r := []) (by simp [Follows]), rfl⟩

theorem not_returns_of_traps {text : Bytes} (h : TextTraps text) :
    ¬((∃ v, parse text = .ok v) ∨ ∃ e, parse text = .error (.error e)) := by
  obtain ⟨x, hx⟩ := (parse_throws_iff text).2 h
  simp [hx]

theorem textTraps_outOfRange : TextTraps (bytes "1e999") := by
  have hstod : Binary64.stod (bytes "1e999") = .error .outOfRange := by decide +kernel
  have hvalue : numberValue (bytes "1e999") = some (.error .outOfRange) := by
    rw [numberValue, if_pos (by decide), hstod]
  exact textTraps_of_number ⟨⟨_, _, rfl, by decide⟩, List.all_eq_true.mp rfl, hvalue⟩

theorem textTraps_noPrefix : TextTraps (bytes "-e5") := by
  have hvalue : numberValue (bytes "-e5") = some (.error .invalidArgument) := rfl
  exact textTraps_of_number ⟨⟨_, _, rfl, by decide⟩, List.all_eq_true.mp rfl, hvalue⟩

/-- `1e999` is outside the range of `double`, `-e5` has no numeric prefix: `std::stod` throws. -/
theorem parse_not_returns :
    ¬((∃ v, parse (bytes "1e999") = .ok v) ∨ ∃ e, parse (bytes "1e999") = .error (.error e)) ∧
    ¬((∃ v, parse (bytes "-e5") = .ok v) ∨ ∃ e, parse (bytes "-e5") = .error (.error e)) :=
  ⟨not_returns_of_traps textTraps_outOfRange, not_returns_of_traps textTraps_noPrefix⟩

end Lsp.Json
