import LspFramework.Json.Machine

/-!
# The parser and the grammar

The loop of `parse` against the derivations of `Grammar`, from the grammar to the loop.  Both
results are by induction on the derivation, with one lemma for each of its rules:

    Derives t v → ReachesValue t v        (derives_reaches)
    Traps t → ThrowsAt t                  (traps_throws)

The first says that from a state that waits for a value, `t` is read to its end and `v` is stored;
the second that from such a state the loop ends with an exception.
-/

namespace Lsp.Json

open Chars Loop Lsp.Json.Parser
open Value (deref? store)

/-! ## Heads -/

theorem numberHead_facts : ∀ c : UInt8, (isdigit c || c == chr '-') = true →
    isspace c = false ∧ c ≠ chr '{' ∧ c ≠ chr '[' ∧ c ≠ chr ']' :=
  forall_byte (by decide +kernel)

theorem isNumberChar_of_isspace : ∀ c : UInt8, isspace c = true → isNumberChar c = false :=
  forall_byte (by decide +kernel)

theorem scalar_head {t : Bytes} {v : Value} (h : Scalar t v) :
    ∃ c s, t = c :: s ∧ isspace c = false ∧ c ≠ chr '{' ∧ c ≠ chr '[' ∧ c ≠ chr ']' := by
  cases h with
  | string hs =>
    obtain ⟨body, -, rfl, -⟩ := hs
    exact ⟨_, _, rfl, by decide⟩
  | number hn =>
    obtain ⟨c, s, rfl, hc⟩ := hn.head
    exact ⟨c, s, rfl, numberHead_facts c hc⟩
  | true_ => exact ⟨_, _, rfl, by decide⟩
  | false_ => exact ⟨_, _, rfl, by decide⟩
  | null => exact ⟨_, _, rfl, by decide⟩

theorem derives_head {t : Bytes} {v : Value} (h : Derives t v) :
    ∃ c s, t = c :: s ∧ isspace c = false ∧ c ≠ chr ']' := by
  cases h with
  | scalar hs =>
    obtain ⟨c, s, rfl, h₁, -, -, h₂⟩ := scalar_head hs
    exact ⟨c, s, rfl, h₁, h₂⟩
  | array _ => exact ⟨_, _, rfl, by decide⟩
  | object _ _ => exact ⟨_, _, rfl, by decide⟩

theorem traps_head {t : Bytes} (h : Traps t) : ∃ c s, t = c :: s ∧ isspace c = false ∧ c ≠ chr ']' := by
  cases h with
  | number hn _ =>
    obtain ⟨c, s, rfl, hc⟩ := hn.head
    obtain ⟨h₁, -, -, h₂⟩ := numberHead_facts c hc
    exact ⟨c, _, rfl, h₁, h₂⟩
  | array _ => exact ⟨_, _, rfl, by decide⟩
  | object _ => exact ⟨_, _, rfl, by decide⟩

theorem follows_ws_append {w : Bytes} (hw : Ws w) {c : UInt8} (hc : isNumberChar c = false) (s : Bytes) :
    Follows (w ++ c :: s) := by
  intro d hd
  cases w with
  | nil =>
    simp only [List.nil_append, List.head?_cons, Option.some.injEq] at hd
    rwa [← hd]
  | cons b w =>
    simp only [List.cons_append, List.head?_cons, Option.some.injEq] at hd
    exact isNumberChar_of_isspace d (hd ▸ hw b List.mem_cons_self)

theorem follows_ws {w : Bytes} (hw : Ws w) : Follows w := by
  intro d hd
  exact isNumberChar_of_isspace d (hw d (List.mem_of_mem_head? hd))

theorem follows_separator {s : Bytes} (h : Separator false s) (t : Bytes) : Follows (s ++ t) := by
  cases h with
  | comma h₁ _ =>
    rw [List.append_assoc, List.cons_append]
    exact follows_ws_append h₁ (by decide) _

theorem elements_follows {t : Bytes} {vs : Array} (h : Elements false t vs) (r : Bytes) :
    Follows (t ++ r) := by
  cases h with
  | close hw =>
    rw [List.append_assoc]
    exact follows_ws_append hw (by decide) _
  | item hs _ _ =>
    rw [List.append_assoc, List.append_assoc]
    exact follows_separator hs _

theorem members_follows {t : Bytes} {ms : Object} (h : Members false t ms) (r : Bytes) :
    Follows (t ++ r) := by
  cases h with
  | close hw =>
    rw [List.append_assoc]
    exact follows_ws_append hw (by decide) _
  | item hs _ _ _ _ _ =>
    simp only [List.append_assoc]
    exact follows_separator hs _

theorem Separator.append_ws {first : Bool} {s w : Bytes} (h : Separator first s) (hw : Ws w) :
    Separator first (s ++ w) := by
  cases h with
  | first h₁ => exact .first fun c hc => (List.mem_append.mp hc).elim (h₁ c) (hw c)
  | @comma w₁ w₂ h₁ h₂ =>
    rw [List.append_assoc, List.cons_append]
    exact .comma h₁ fun c hc => (List.mem_append.mp hc).elim (h₂ c) (hw c)

/-! ## Separators -/

theorem separator_comma {n : Nat} {close c : UInt8} {w s : Bytes} (hw : Ws w) (hc : isspace c = false)
    (hclose : c ≠ close) : separator n false close (chr ',' :: (w ++ c :: s)) = .ok (c :: s) := by
  have hskip : skipWhitespace (w ++ c :: s) = c :: s := by
    apply skipWhitespace_ws hw
    simp [hc]
  have hhead : (skipWhitespace (chr ',' :: (w ++ c :: s)).tail).head? ≠ some close := by
    rw [List.tail_cons, hskip]
    simpa using hclose
  simp only [separator, charAt, bind, Except.bind, ne_eq, not_true_eq_false, if_false,
    Bool.false_eq_true, if_neg hhead]
  rw [List.tail_cons, hskip]

theorem separator_ok {n : Nat} {first : Bool} {close c : UInt8} {w s s' : Bytes} (hw : Ws w)
    (h : separator n first close (c :: s) = .ok s') :
    ∃ sep, Separator first sep ∧ w ++ c :: s = sep ++ s' := by
  unfold separator at h
  split at h
  · next hf =>
    cases h
    subst hf
    exact ⟨w, .first hw, rfl⟩
  · next hf =>
    simp only [charAt, bind_eq_ok, Except.ok.injEq, exists_eq_left'] at h
    split at h
    · exact absurd h (failAt_ne_ok _ _ _)
    · next hc =>
      split at h
      · exact absurd h (failAt_ne_ok _ _ _)
      · obtain rfl : c = chr ',' := not_not.mp hc
        obtain rfl : first = false := by simpa using hf
        obtain ⟨w', s'', hw', rfl, hs''⟩ := split_ws s
        simp only [List.tail_cons, skipWhitespace_ws hw' hs'', Except.ok.injEq] at h
        subst h
        exact ⟨w ++ chr ',' :: w', .comma hw hw', by simp⟩

theorem separator_error {n : Nat} {first : Bool} {close c : UInt8} {s : Bytes} {x : Exit}
    (h : separator n first close (c :: s) = .error x) : ∃ e, x = .error e := by
  unfold separator at h
  split at h
  · cases h
  · simp only [charAt, bind, Except.bind] at h
    split at h
    · cases h
      exact ⟨_, rfl⟩
    · split at h
      · cases h
        exact ⟨_, rfl⟩
      · cases h

/-! ## The value under construction -/

section Store

variable {p : Value.Pointer} {R old : Value}

theorem deref?_element (hd : deref? p R = some old) (vs : Array) :
    deref? (p ++ [.index vs.length]) (store p (.array (vs ++ [Value.null])) R) = some .null := by
  rw [Value.deref?_append, Value.deref?_store hd]
  simp [deref?, Value.child?]

/-- The new element of an array is the target of the pointer pushed for it. -/
theorem store_element (hd : deref? p R = some old) (vs : Array) (v : Value) :
    store (p ++ [.index vs.length]) v (store p (.array (vs ++ [Value.null])) R) =
      store p (.array (vs ++ [v])) R := by
  rw [Value.store_append (Value.deref?_store hd _), Value.store_store hd]
  simp [store, Value.child?, Value.setChild]

theorem index_of_notMem {key : Bytes} {ms : Object} (h : key ∉ ms.map Prod.fst) :
    Object.index key ms = ms ++ [(key, .null)] := by
  have hc : Object.contains key ms = false := by
    rw [Bool.eq_false_iff, ne_eq, Object.contains_iff]
    exact h
  simp [Object.index, hc]

theorem deref?_member (hd : deref? p R = some old) {key : Bytes} {ms : Object}
    (h : key ∉ ms.map Prod.fst) :
    deref? (p ++ [.key key]) (store p (.object (Object.index key ms)) R) = some .null := by
  rw [Value.deref?_append, Value.deref?_store hd, index_of_notMem h]
  simp [deref?, Value.child?, Object.find_append_of_notMem h, Object.find]

/-- The new member of an object is the target of the pointer pushed for it. -/
theorem store_member (hd : deref? p R = some old) {key : Bytes} {ms : Object}
    (h : key ∉ ms.map Prod.fst) (v : Value) :
    store (p ++ [.key key]) v (store p (.object (Object.index key ms)) R) =
      store p (.object (ms ++ [(key, v)])) R := by
  rw [Value.store_append (Value.deref?_store hd _), Value.store_store hd, index_of_notMem h]
  simp [store, Value.child?, Value.setChild, Object.find_append_of_notMem h, Object.find,
    Object.assign_append_of_notMem h, Object.assign]

end Store

/-! ## From a container to its next value -/

section Next

variable {n : Nat} {K : List StateStackEntry} {p : Value.Pointer} {R old : Value}

/-- Behind a separator an array goes on to its next element. -/
theorem turn_element (hd : deref? p R = some old) {vs : Array} {sep s : Bytes} {c : UInt8}
    (hs : Separator vs.isEmpty sep) (hc : isspace c = false) (hne : c ≠ chr ']') :
    turn ⟨n, sep ++ c :: s, ⟨.array, p⟩ :: K, store p (.array vs) R⟩ =
      .next ⟨n, c :: s, ⟨.value, p ++ [.index vs.length]⟩ :: ⟨.array, p⟩ :: K,
        store p (.array (vs ++ [Value.null])) R⟩ := by
  have hv := Value.deref?_store hd (.array vs)
  cases hf : vs.isEmpty with
  | true =>
    rw [hf] at hs
    cases hs with
    | first hw =>
      rw [turn_eq hw hc, handle_array_element hv hne, hf]
      simp only [separator, if_true, Value.store_store hd]
  | false =>
    rw [hf] at hs
    cases hs with
    | comma h₁ h₂ =>
      rw [List.append_assoc, List.cons_append, turn_eq h₁ (by decide),
        handle_array_element hv (by decide), hf, separator_comma h₂ hc hne]
      simp only [Value.store_store hd]

/-- Behind a separator an object goes on to its next key. -/
theorem turn_member (hd : deref? p R = some old) {ms : Object} {sep s : Bytes} {c : UInt8}
    (hs : Separator ms.isEmpty sep) (hc : isspace c = false) (hne : c ≠ chr '}') :
    turn ⟨n, sep ++ c :: s, ⟨.object, p⟩ :: K, store p (.object ms) R⟩ =
      .next ⟨n, c :: s, ⟨.objectKey, p⟩ :: ⟨.object, p⟩ :: K, store p (.object ms) R⟩ := by
  have hv := Value.deref?_store hd (.object ms)
  cases hf : ms.isEmpty with
  | true =>
    rw [hf] at hs
    cases hs with
    | first hw =>
      rw [turn_eq hw hc, handle_object_member hv hne, hf]
      simp only [separator, if_true]
  | false =>
    rw [hf] at hs
    cases hs with
    | comma h₁ h₂ =>
      rw [List.append_assoc, List.cons_append, turn_eq h₁ (by decide),
        handle_object_member hv (by decide), hf, separator_comma h₂ hc hne]

/-- A key that is new to the object is followed by its value. -/
theorem turn_key (hd : deref? p R = some old) {ms : Object} {k key w : Bytes} (s : Bytes)
    (hk : StringToken k key) (hnew : key ∉ ms.map Prod.fst) (hw : Ws w) :
    turn ⟨n, k ++ (w ++ chr ':' :: s), ⟨.objectKey, p⟩ :: K, store p (.object ms) R⟩ =
      .next ⟨n, s, ⟨.value, p ++ [.key key]⟩ :: K, store p (.object (Object.index key ms)) R⟩ := by
  have hv := Value.deref?_store hd (.object ms)
  have hstr := parseString_token (n := n) hk (w ++ chr ':' :: s)
  have hcont : Object.contains key ms = false := by
    rw [Bool.eq_false_iff, ne_eq, Object.contains_iff]
    exact hnew
  have hskip : skipWhitespace (w ++ chr ':' :: s) = chr ':' :: s := by
    apply skipWhitespace_ws hw
    simp [isspace]
  obtain ⟨body, -, rfl, -⟩ := hk
  have hturn := turn_eq (n := n) (w := []) (s := body ++ [chr '"'] ++ (w ++ chr ':' :: s)) (K := K)
    (e := ⟨.objectKey, p⟩) (R := store p (.object ms) R) (c := chr '"') (by simp [Ws]) (by decide)
  simp only [List.nil_append, List.cons_append] at hturn hstr ⊢
  rw [hturn, handle_objectKey hv, hstr]
  simp only [hcont, hskip, Value.store_store hd, Bool.false_eq_true, if_false, List.head?_cons, ne_eq,
    not_true_eq_false]
  rw [List.tail_cons]

theorem string_head {k key : Bytes} (h : StringToken k key) : ∃ s, k = chr '"' :: s := by
  obtain ⟨body, -, rfl, -⟩ := h
  exact ⟨_, rfl⟩

/-- From an object to the value of its next member. -/
theorem reaches_member (hd : deref? p R = some old) {ms : Object} {sep k key w₁ : Bytes} (s : Bytes)
    (hs : Separator ms.isEmpty sep) (hk : StringToken k key) (hnew : key ∉ ms.map Prod.fst)
    (hw₁ : Ws w₁) :
    Reaches turn ⟨n, sep ++ (k ++ (w₁ ++ chr ':' :: s)), ⟨.object, p⟩ :: K, store p (.object ms) R⟩
      ⟨n, s, ⟨.value, p ++ [.key key]⟩ :: ⟨.object, p⟩ :: K,
        store p (.object (Object.index key ms)) R⟩ := by
  obtain ⟨body, hbody⟩ := string_head hk
  have hmem := turn_member (n := n) (K := K) (s := body ++ (w₁ ++ chr ':' :: s)) hd hs
    (c := chr '"') (by decide) (by decide)
  have hkey := turn_key (n := n) (K := ⟨.object, p⟩ :: K) hd s hk hnew hw₁
  subst hbody
  exact .head hmem (.head hkey (.refl _))

end Next

/-! ## What is derived is read -/

def ReachesValue (t : Bytes) (v : Value) : Prop :=
  ∀ (n : Nat) (w r : Bytes) (p : Value.Pointer) (K : List StateStackEntry) (R old : Value),
    Ws w → Follows r → deref? p R = some old →
    Reaches turn ⟨n, w ++ (t ++ r), ⟨.value, p⟩ :: K, R⟩ ⟨n, r, K, store p v R⟩

/-- The rest of an array that has the elements `vs` already. -/
def ReachesElements (first : Bool) (t : Bytes) (ws : Array) : Prop :=
  ∀ (n : Nat) (r : Bytes) (p : Value.Pointer) (K : List StateStackEntry) (R old : Value) (vs : Array),
    vs.isEmpty = first → deref? p R = some old →
    Reaches turn ⟨n, t ++ r, ⟨.array, p⟩ :: ⟨.value, p⟩ :: K, store p (.array vs) R⟩
      ⟨n, r, K, store p (.array (vs ++ ws)) R⟩

/-- The rest of an object that has the members `ms` already. -/
def ReachesMembers (first : Bool) (t : Bytes) (ns : Object) : Prop :=
  ∀ (n : Nat) (r : Bytes) (p : Value.Pointer) (K : List StateStackEntry) (R old : Value) (ms : Object),
    ms.isEmpty = first → ((ms ++ ns).map Prod.fst).Nodup → deref? p R = some old →
    Reaches turn ⟨n, t ++ r, ⟨.object, p⟩ :: ⟨.value, p⟩ :: K, store p (.object ms) R⟩
      ⟨n, r, K, store p (.object (ms ++ ns)) R⟩

theorem reaches_scalar {t : Bytes} {v : Value} (h : Scalar t v) : ReachesValue t v := by
  intro n w r p K R old hw hr hd
  have hparse := parseSimpleValue_scalar (n := n) h hr
  obtain ⟨c, s, rfl, hc, h₁, h₂, -⟩ := scalar_head h
  refine .head ?_ (.refl _)
  rw [List.cons_append] at hparse ⊢
  rw [turn_eq hw hc, handle_value_scalar hd h₁ h₂, hparse]

theorem reaches_array {t : Bytes} {vs : Array} (h : ReachesElements true t vs) :
    ReachesValue (chr '[' :: t) (.array vs) := by
  intro n w r p K R old hw _ hd
  refine .head ?_ (h n r p K R old [] rfl hd)
  rw [List.cons_append, turn_eq hw (by decide), handle_value_array hd]

theorem reaches_object {t : Bytes} {ms : Object} (h : ReachesMembers true t ms)
    (hnd : (ms.map Prod.fst).Nodup) : ReachesValue (chr '{' :: t) (.object ms) := by
  intro n w r p K R old hw _ hd
  refine .head ?_ (h n r p K R old [] rfl (by simpa using hnd) hd)
  rw [List.cons_append, turn_eq hw (by decide), handle_value_object hd]

theorem reaches_elements_close {first : Bool} {w : Bytes} (hw : Ws w) :
    ReachesElements first (w ++ [chr ']']) [] := by
  intro n r p K R old vs _ _
  refine .head ?_ (.refl _)
  rw [List.append_assoc, List.singleton_append, turn_eq hw (by decide), handle_array_close,
    List.append_nil]

theorem reaches_elements_item {first : Bool} {s t t' : Bytes} {v : Value} {ws : Array}
    (hs : Separator first s) (ht : Derives t v) (ht' : Elements false t' ws) (ih : ReachesValue t v)
    (ih' : ReachesElements false t' ws) : ReachesElements first (s ++ t ++ t') (v :: ws) := by
  intro n r p K R old vs hvs hd
  have hval := ih n [] (t' ++ r) (p ++ [.index vs.length]) (⟨.array, p⟩ :: ⟨.value, p⟩ :: K)
    (store p (.array (vs ++ [Value.null])) R) .null (by simp [Ws]) (elements_follows ht' r)
    (deref?_element hd vs)
  rw [store_element hd] at hval
  have hrest := ih' n r p K R old (vs ++ [v]) (by simp) hd
  rw [List.append_assoc, List.singleton_append] at hrest
  obtain ⟨c, t, rfl, hc, hne⟩ := derives_head ht
  have hturn := turn_element (n := n) (K := ⟨.value, p⟩ :: K) (s := t ++ (t' ++ r)) hd
    (hvs ▸ hs) hc hne
  simp only [List.append_assoc, List.cons_append, List.nil_append] at hval ⊢
  exact .head hturn (hval.trans hrest)

theorem reaches_members_close {first : Bool} {w : Bytes} (hw : Ws w) :
    ReachesMembers first (w ++ [chr '}']) [] := by
  intro n r p K R old ms _ _ _
  refine .head ?_ (.refl _)
  rw [List.append_assoc, List.singleton_append, turn_eq hw (by decide), handle_object_close,
    List.append_nil]

theorem reaches_members_item {first : Bool} {s k w₁ w₂ t t' key : Bytes} {v : Value} {ns : Object}
    (hs : Separator first s) (hk : StringToken k key) (hw₁ : Ws w₁) (hw₂ : Ws w₂)
    (ht' : Members false t' ns) (ih : ReachesValue t v) (ih' : ReachesMembers false t' ns) :
    ReachesMembers first (s ++ k ++ w₁ ++ chr ':' :: w₂ ++ t ++ t') ((key, v) :: ns) := by
  intro n r p K R old ms hms hnd hd
  have hnew : key ∉ ms.map Prod.fst := by
    rw [List.map_append, List.map_cons, List.nodup_append] at hnd
    exact fun hmem => hnd.2.2 key hmem key List.mem_cons_self rfl
  have hmem := reaches_member (n := n) (K := ⟨.value, p⟩ :: K) hd (w₂ ++ (t ++ (t' ++ r)))
    (hms ▸ hs) hk hnew hw₁
  have hval := ih n w₂ (t' ++ r) (p ++ [.key key]) (⟨.object, p⟩ :: ⟨.value, p⟩ :: K)
    (store p (.object (Object.index key ms)) R) .null hw₂ (members_follows ht' r)
    (deref?_member hd hnew)
  rw [store_member hd hnew] at hval
  have hrest := ih' n r p K R old (ms ++ [(key, v)]) (by simp) (by simpa using hnd) hd
  rw [List.append_assoc, List.singleton_append] at hrest
  simp only [List.append_assoc, List.cons_append]
  exact hmem.trans (hval.trans hrest)

/-- **A derived value is read to its end and stored.** -/
theorem derives_reaches {t : Bytes} {v : Value} (h : Derives t v) : ReachesValue t v :=
  @Derives.rec (fun t v _ => ReachesValue t v) (fun first t vs _ => ReachesElements first t vs)
    (fun first t ms _ => ReachesMembers first t ms)
    (fun hs => reaches_scalar hs)
    (fun _ ih => reaches_array ih)
    (fun _ hnd ih => reaches_object ih hnd)
    (fun hw => reaches_elements_close hw)
    (fun hs ht ht' ih ih' => reaches_elements_item hs ht ht' ih ih')
    (fun hw => reaches_members_close hw)
    (fun hs hk hw₁ hw₂ _ ht' ih ih' => reaches_members_item hs hk hw₁ hw₂ ht' ih ih') t v h

/-! ## Leaving without a value -/

/-- From a state that waits for a value, the loop leaves inside `t` in a way that `Q` allows. -/
def LeavesAt (Q : Exit → Prop) (t : Bytes) : Prop :=
  ∀ (n : Nat) (w : Bytes) (p : Value.Pointer) (K : List StateStackEntry) (R old : Value),
    Ws w → deref? p R = some old → ∃ x, Q x ∧ Ends turn ⟨n, w ++ t, ⟨.value, p⟩ :: K, R⟩ (.error x)

def LeavesInElements (Q : Exit → Prop) (first : Bool) (t : Bytes) : Prop :=
  ∀ (n : Nat) (p : Value.Pointer) (K : List StateStackEntry) (R old : Value) (vs : Array),
    vs.isEmpty = first → deref? p R = some old →
    ∃ x, Q x ∧ Ends turn ⟨n, t, ⟨.array, p⟩ :: K, store p (.array vs) R⟩ (.error x)

def LeavesInMembers (Q : Exit → Prop) (first : Bool) (keys : List Bytes) (t : Bytes) : Prop :=
  ∀ (n : Nat) (p : Value.Pointer) (K : List StateStackEntry) (R old : Value) (ms : Object),
    ms.isEmpty = first → ms.map Prod.fst = keys → deref? p R = some old →
    ∃ x, Q x ∧ Ends turn ⟨n, t, ⟨.object, p⟩ :: K, store p (.object ms) R⟩ (.error x)

section Leaves

variable {Q : Exit → Prop}

theorem leaves_number {t : Bytes} (ht : ∃ c s, t = c :: s ∧ (isdigit c || c == chr '-') = true)
    (h : ∀ n, ∃ x, Q x ∧ parseSimpleValue n t = .error x) : LeavesAt Q t := by
  intro n w p K R old hw hd
  obtain ⟨x, hx, hparse⟩ := h n
  obtain ⟨c, s, rfl, hc⟩ := ht
  obtain ⟨hsp, h₁, h₂, -⟩ := numberHead_facts c hc
  refine ⟨x, hx, ends_done ?_⟩
  rw [turn_eq hw hsp, handle_value_scalar hd h₁ h₂, hparse]

theorem leaves_array {t : Bytes} (h : LeavesInElements Q true t) : LeavesAt Q (chr '[' :: t) := by
  intro n w p K R old hw hd
  obtain ⟨x, hx, he⟩ := h n p (⟨.value, p⟩ :: K) R old [] rfl hd
  refine ⟨x, hx, (ends_next ?_ _).2 he⟩
  rw [turn_eq hw (by decide), handle_value_array hd]

theorem leaves_object {t : Bytes} (h : LeavesInMembers Q true [] t) : LeavesAt Q (chr '{' :: t) := by
  intro n w p K R old hw hd
  obtain ⟨x, hx, he⟩ := h n p (⟨.value, p⟩ :: K) R old [] rfl rfl hd
  refine ⟨x, hx, (ends_next ?_ _).2 he⟩
  rw [turn_eq hw (by decide), handle_value_object hd]

theorem leaves_elements_here {first : Bool} {s t : Bytes} (hs : Separator first s)
    (ht : ∃ c r, t = c :: r ∧ isspace c = false ∧ c ≠ chr ']') (ih : LeavesAt Q t) :
    LeavesInElements Q first (s ++ t) := by
  intro n p K R old vs hvs hd
  obtain ⟨x, hx, he⟩ := ih n [] (p ++ [.index vs.length]) (⟨.array, p⟩ :: K)
    (store p (.array (vs ++ [Value.null])) R) .null (by simp [Ws]) (deref?_element hd vs)
  obtain ⟨c, t, rfl, hc, hne⟩ := ht
  exact ⟨x, hx, (ends_next (turn_element hd (hvs ▸ hs) hc hne) _).2 he⟩

theorem leaves_elements_later {first : Bool} {s t t' : Bytes} {v : Value} (hs : Separator first s)
    (ht : Derives t v) (hfollow : Follows t') (ih' : LeavesInElements Q false t') :
    LeavesInElements Q first (s ++ t ++ t') := by
  intro n p K R old vs hvs hd
  have hval := derives_reaches ht n [] t' (p ++ [.index vs.length]) (⟨.array, p⟩ :: K)
    (store p (.array (vs ++ [Value.null])) R) .null (by simp [Ws]) hfollow (deref?_element hd vs)
  rw [store_element hd] at hval
  obtain ⟨x, hx, he⟩ := ih' n p K R old (vs ++ [v]) (by simp) hd
  obtain ⟨c, t, rfl, hc, hne⟩ := derives_head ht
  have hturn := turn_element (n := n) (K := K) (s := t ++ t') hd (hvs ▸ hs) hc hne
  simp only [List.append_assoc, List.cons_append, List.nil_append] at hval ⊢
  exact ⟨x, hx, (ends_next hturn _).2 ((hval.ends_iff _).2 he)⟩

theorem leaves_members_here {first : Bool} {keys : List Bytes} {s k w₁ w₂ t key : Bytes}
    (hs : Separator first s) (hk : StringToken k key) (hnew : key ∉ keys) (hw₁ : Ws w₁) (hw₂ : Ws w₂)
    (ih : LeavesAt Q t) : LeavesInMembers Q first keys (s ++ k ++ w₁ ++ chr ':' :: w₂ ++ t) := by
  intro n p K R old ms hms hkeys hd
  have hnew' : key ∉ ms.map Prod.fst := hkeys ▸ hnew
  have hmem := reaches_member (n := n) (K := K) hd (w₂ ++ t) (hms ▸ hs) hk hnew' hw₁
  obtain ⟨x, hx, he⟩ := ih n w₂ (p ++ [.key key]) (⟨.object, p⟩ :: K)
    (store p (.object (Object.index key ms)) R) .null hw₂ (deref?_member hd hnew')
  refine ⟨x, hx, ?_⟩
  simp only [List.append_assoc, List.cons_append]
  exact (hmem.ends_iff _).2 he

theorem leaves_members_later {first : Bool} {keys : List Bytes} {s k w₁ w₂ t t' key : Bytes} {v : Value}
    (hs : Separator first s) (hk : StringToken k key) (hnew : key ∉ keys) (hw₁ : Ws w₁) (hw₂ : Ws w₂)
    (ht : Derives t v) (hfollow : Follows t') (ih' : LeavesInMembers Q false (keys ++ [key]) t') :
    LeavesInMembers Q first keys (s ++ k ++ w₁ ++ chr ':' :: w₂ ++ t ++ t') := by
  intro n p K R old ms hms hkeys hd
  have hnew' : key ∉ ms.map Prod.fst := hkeys ▸ hnew
  have hmem := reaches_member (n := n) (K := K) hd (w₂ ++ (t ++ t')) (hms ▸ hs) hk hnew' hw₁
  have hval := derives_reaches ht n w₂ t' (p ++ [.key key]) (⟨.object, p⟩ :: K)
    (store p (.object (Object.index key ms)) R) .null hw₂ hfollow (deref?_member hd hnew')
  rw [store_member hd hnew'] at hval
  obtain ⟨x, hx, he⟩ := ih' n p K R old (ms ++ [(key, v)]) (by simp) (by simp [hkeys]) hd
  refine ⟨x, hx, ?_⟩
  simp only [List.append_assoc, List.cons_append]
  exact ((hmem.trans hval).ends_iff _).2 he

end Leaves

/-! ## What traps throws -/

def Throws (x : Exit) : Prop := ∃ e, x = .throws e

def ThrowsAt (t : Bytes) : Prop :=
  ∀ (n : Nat) (w : Bytes) (p : Value.Pointer) (K : List StateStackEntry) (R old : Value),
    Ws w → deref? p R = some old → ∃ e, Ends turn ⟨n, w ++ t, ⟨.value, p⟩ :: K, R⟩ (.error (.throws e))

theorem throwsAt_of_leavesAt {t : Bytes} (h : LeavesAt Throws t) : ThrowsAt t := by
  intro n w p K R old hw hd
  obtain ⟨x, ⟨e, rfl⟩, he⟩ := h n w p K R old hw hd
  exact ⟨e, he⟩

theorem leaves_throws {t r : Bytes} {e : StdException} (h : NumberToken t (.error e)) (hr : Follows r) :
    LeavesAt Throws (t ++ r) := by
  refine leaves_number ?_ fun n => ⟨_, ⟨e, rfl⟩, parseSimpleValue_number h hr⟩
  obtain ⟨c, s, rfl, hc⟩ := h.head
  exact ⟨c, s ++ r, rfl, hc⟩

theorem trapsElements_follows {t : Bytes} (h : TrapsElements false t) : Follows t := by
  cases h with
  | here hs _ => exact follows_separator hs _
  | later hs _ _ =>
    rw [List.append_assoc]
    exact follows_separator hs _

theorem trapsMembers_follows {keys : List Bytes} {t : Bytes} (h : TrapsMembers false keys t) : Follows t := by
  cases h with
  | here hs _ _ _ _ _ =>
    simp only [List.append_assoc]
    exact follows_separator hs _
  | later hs _ _ _ _ _ _ =>
    simp only [List.append_assoc]
    exact follows_separator hs _

/-- **A text that traps ends with the exception.** -/
theorem traps_throws {t : Bytes} (h : Traps t) : ThrowsAt t :=
  throwsAt_of_leavesAt <|
    @Traps.rec (fun t _ => LeavesAt Throws t) (fun first t _ => LeavesInElements Throws first t)
      (fun first keys t _ => LeavesInMembers Throws first keys t)
      (fun hn hr => leaves_throws hn hr)
      (fun _ ih => leaves_array ih)
      (fun _ ih => leaves_object ih)
      (fun hs ht ih => leaves_elements_here hs (traps_head ht) ih)
      (fun hs ht ht' ih' => leaves_elements_later hs ht (trapsElements_follows ht') ih')
      (fun hs hk hnew hw₁ hw₂ _ ih => leaves_members_here hs hk hnew hw₁ hw₂ ih)
      (fun hs hk hnew hw₁ hw₂ ht ht' ih' =>
        leaves_members_later hs hk hnew hw₁ hw₂ ht (trapsMembers_follows ht') ih') t h

end Lsp.Json
