import LspFramework.Lib.Percent
import LspFramework.Uri.Uri

/-!
# Percent-encoding

What `encode` writes, `decode` reads back; what `decode` makes of any text is told by its escapes:

    decode (encode s "/") = s                                          (decode_encode)
    decodable s = false → decode s = []                                (decode_of_not_decodable)
    decodable s → (decode s begins with // ↔ beginsWithSlashes s)      (decode_slashes_iff)
-/

namespace Lsp.Uri

open Chars

/-! ## Escapes of a text -/

/-- Every escape the scan meets has two hex digits; a `%` before fewer than two bytes is no escape. -/
def decodable : Bytes → Bool
  | c :: a :: b :: s =>
    if c = chr '%' then isDigitOf 16 a && isDigitOf 16 b && decodable s else decodable (a :: b :: s)
  | _ => true

/-- The text behind a slash at its front, written plainly or as an escape. -/
def dropSlash : Bytes → Option Bytes
  | [] => none
  | c :: s =>
    if c = chr '/' then some s
    else if c :: s.take 2 = bytes "%2F" ∨ c :: s.take 2 = bytes "%2f" then some (s.drop 2)
    else none

def beginsWithSlashes (s : Bytes) : Bool := ((dropSlash s).bind dropSlash).isSome

/-! ## Decoding -/

theorem fromChars_two (a b : UInt8) :
    fromChars 16 255 [a, b] = (.ok (16 * digitVal a + digitVal b), 2) ∧ isDigitOf 16 a = true ∧ isDigitOf 16 b = true ∨
    (∀ v, fromChars 16 255 [a, b] ≠ (.ok v, 2)) ∧ (isDigitOf 16 a && isDigitOf 16 b) = false := by
  cases ha : isDigitOf 16 a with
  | false =>
    refine .inr ⟨?_, rfl⟩
    intro v
    simp [fromChars, ha]
  | true =>
    cases hb : isDigitOf 16 b with
    | false =>
      refine .inr ⟨?_, rfl⟩
      have hlen : (fromChars 16 255 [a, b]).2 = 1 := by
        simp only [fromChars, List.takeWhile_cons, ha, hb, if_true, Bool.false_eq_true, if_false, reduceCtorEq]
        split <;> rfl
      intro v h
      rw [h] at hlen
      cases hlen
    | true =>
      refine .inl ⟨?_, rfl, rfl⟩
      have hlt : ∀ {d}, isDigitOf 16 d = true → digitVal d < 16 := fun h => by simpa [isDigitOf] using h
      have h₁ := hlt ha
      have h₂ := hlt hb
      simp only [fromChars, List.takeWhile_cons, ha, hb, List.takeWhile_nil, if_true, reduceCtorEq, if_false,
        valueOf, List.foldl_cons, List.foldl_nil]
      rw [if_neg (by omega)]
      simp

theorem decodeLoop_plain {c : UInt8} (hc : c ≠ chr '%') (s : Bytes) :
    decodeLoop (c :: s) = (decodeLoop s).map (c :: ·) := by
  match s with
  | [] => rfl
  | [_] => rfl
  | _ :: _ :: _ => simp only [decodeLoop, hc, if_false]

theorem decodeLoop_escape (a b : UInt8) (s : Bytes) :
    decodeLoop (chr '%' :: a :: b :: s) =
      if isDigitOf 16 a && isDigitOf 16 b then
        (decodeLoop s).map (UInt8.ofNat (16 * digitVal a + digitVal b) :: ·)
      else none := by
  rcases fromChars_two a b with ⟨h, ha, hb⟩ | ⟨h, hd⟩
  · simp only [decodeLoop, if_true, h, ha, hb, Bool.and_self]
  · simp only [decodeLoop, if_true, hd, Bool.false_eq_true, if_false]

theorem decodeLoop_isSome : ∀ s : Bytes, (decodeLoop s).isSome = decodable s
  | [] => rfl
  | [_] => rfl
  | [_, _] => rfl
  | c :: a :: b :: s => by
    by_cases hc : c = chr '%'
    · subst hc
      rw [decodeLoop_escape]
      simp only [decodable, if_true, ← decodeLoop_isSome s]
      cases isDigitOf 16 a && isDigitOf 16 b <;> simp
    · rw [decodeLoop_plain hc, Option.isSome_map, decodeLoop_isSome (a :: b :: s)]
      simp only [decodable, hc, if_false]

theorem decode_of_not_decodable {s : Bytes} (h : decodable s = false) : decode s = [] := by
  rw [← decodeLoop_isSome] at h
  rw [decode, Option.isSome_eq_false_iff.mp h |> Option.isNone_iff_eq_none.mp]
  rfl

theorem decodeLoop_of_decodable {s : Bytes} (h : decodable s = true) : decodeLoop s = some (decode s) := by
  rw [← decodeLoop_isSome] at h
  obtain ⟨t, ht⟩ := Option.isSome_iff_exists.mp h
  rw [decode, ht]
  rfl

theorem length_decodeLoop : ∀ {s t : Bytes}, decodeLoop s = some t → t.length ≤ s.length
  | [], _, h => by cases h; exact Nat.le_refl _
  | [_], _, h => by cases h; exact Nat.le_refl _
  | [_, _], _, h => by cases h; exact Nat.le_refl _
  | c :: a :: b :: s, t, h => by
    by_cases hc : c = chr '%'
    · subst hc
      rw [decodeLoop_escape] at h
      split at h
      · obtain ⟨r, hr, rfl⟩ := Option.map_eq_some_iff.mp h
        have := length_decodeLoop hr
        simp only [List.length_cons]
        omega
      · cases h
    · rw [decodeLoop_plain hc] at h
      obtain ⟨r, hr, rfl⟩ := Option.map_eq_some_iff.mp h
      have := length_decodeLoop hr
      simp only [List.length_cons] at this ⊢
      omega

theorem length_decode (s : Bytes) : (decode s).length ≤ s.length := by
  unfold decode
  cases h : decodeLoop s with
  | none => exact Nat.zero_le _
  | some t => exact length_decodeLoop h

theorem dropSlash_plain {c : UInt8} (hc : c ≠ chr '%') (s : Bytes) :
    dropSlash (c :: s) = if c = chr '/' then some s else none := by
  have hno : ¬ (c :: s.take 2 = bytes "%2F" ∨ c :: s.take 2 = bytes "%2f") := by
    rintro (h | h) <;> exact hc (List.cons.inj h).1
  simp only [dropSlash, hno, if_false]

theorem dropSlash_escape (a b : UInt8) (s : Bytes) :
    dropSlash (chr '%' :: a :: b :: s) = if a = chr '2' ∧ (b = chr 'F' ∨ b = chr 'f') then some s else none := by
  have hpct : chr '%' ≠ chr '/' := by decide
  have htext : chr '%' :: (a :: b :: s).take 2 = bytes "%2F" ∨ chr '%' :: (a :: b :: s).take 2 = bytes "%2f" ↔
      a = chr '2' ∧ (b = chr 'F' ∨ b = chr 'f') := by
    simp [bytes, and_or_left]
  simp only [dropSlash, hpct, if_false, htext, List.drop_succ_cons, List.drop_zero]

theorem slash_of_first {p : Prop} [Decidable p] {s r t : Bytes} {x : UInt8}
    (hdrop : dropSlash s = if p then some r else none) (hx : x = chr '/' ↔ p) (ht : decodeLoop r = some t) :
    (∀ r, dropSlash s = some r → ∃ t', x :: t = chr '/' :: t' ∧ decodeLoop r = some t') ∧
    (dropSlash s = none → (x :: t).head? ≠ some (chr '/')) := by
  rw [hdrop]
  constructor
  · intro r' hr
    split at hr
    · next hp =>
      cases hr
      exact ⟨t, by rw [hx.mpr hp], ht⟩
    · cases hr
  · intro hr
    split at hr
    · cases hr
    · next hp =>
      rw [List.head?_cons, ne_eq, Option.some.injEq]
      exact fun heq => hp (hx.mp heq)

/-- A slash at the front of the decoded text is one at the front of the text. -/
theorem decodeLoop_slash {s t : Bytes} (h : decodeLoop s = some t) :
    (∀ r, dropSlash s = some r → ∃ t', t = chr '/' :: t' ∧ decodeLoop r = some t') ∧
    (dropSlash s = none → t.head? ≠ some (chr '/')) := by
  cases s with
  | nil =>
    cases h
    exact ⟨nofun, nofun⟩
  | cons c s =>
    by_cases hc : c = chr '%'
    · subst hc
      match s with
      | [] =>
        cases h
        exact ⟨nofun, fun _ => by decide⟩
      | [a] =>
        cases h
        refine ⟨fun r hr => ?_, fun _ => ?_⟩
        · simp [dropSlash, bytes] at hr
        · rw [List.head?_cons]
          decide
      | a :: b :: s =>
        rw [decodeLoop_escape] at h
        split at h
        · next hhex =>
          obtain ⟨ha, hb⟩ := Bool.and_eq_true_iff.mp hhex
          obtain ⟨t', ht', rfl⟩ := Option.map_eq_some_iff.mp h
          exact slash_of_first (dropSlash_escape a b s) (Percent.escape_slash ha hb) ht'
        · cases h
    · rw [decodeLoop_plain hc] at h
      obtain ⟨t', ht', rfl⟩ := Option.map_eq_some_iff.mp h
      exact slash_of_first (dropSlash_plain hc s) Iff.rfl ht'

/-- **A decoded text begins with two slashes when its text does.** -/
theorem decode_slashes_iff {s : Bytes} (h : decodable s = true) :
    (∃ t, decode s = chr '/' :: chr '/' :: t) ↔ beginsWithSlashes s = true := by
  have hs := decodeLoop_of_decodable h
  obtain ⟨h₁, h₂⟩ := decodeLoop_slash hs
  unfold beginsWithSlashes
  cases hd : dropSlash s with
  | none =>
    have hne := h₂ hd
    constructor
    · rintro ⟨t, ht⟩
      rw [ht] at hne
      exact absurd rfl hne
    · intro hno
      cases hno
  | some r =>
    obtain ⟨t', ht', hr⟩ := h₁ r hd
    obtain ⟨h₃, h₄⟩ := decodeLoop_slash hr
    rw [ht', Option.bind_some]
    cases hd' : dropSlash r with
    | none =>
      have hne := h₄ hd'
      constructor
      · rintro ⟨t, ht⟩
        rw [(List.cons.inj ht).2] at hne
        exact absurd rfl hne
      · intro hno
        cases hno
    | some r' =>
      obtain ⟨t'', ht'', -⟩ := h₃ r' hd'
      rw [ht'']
      exact ⟨fun _ => rfl, fun _ => ⟨t'', rfl⟩⟩

/-! ## Encoding -/

/-- The text of a byte: itself, or an escape that is read back as it. -/
theorem encodeChar_cases : ∀ c : UInt8,
    (encodeChar (bytes "/") c = [c] ∧ c ≠ chr '%' ∧ isPathChar c = true) ∨
    (∃ a b, encodeChar (bytes "/") c = [chr '%', a, b] ∧ isDigitOf 16 a = true ∧ isDigitOf 16 b = true ∧
      UInt8.ofNat (16 * digitVal a + digitVal b) = c ∧ c ≠ chr '/') := by
  intro c
  by_cases hplain : ((bytes "/").contains c || isalnum c || c == chr '_' || c == chr '.' || c == chr '-') = true
  · refine .inl ⟨if_pos hplain, ?_⟩
    exact forall_byte (P := fun c => ((bytes "/").contains c || isalnum c || c == chr '_' || c == chr '.' ||
      c == chr '-') = true → c ≠ chr '%' ∧ isPathChar c = true) (by decide +kernel) c hplain
  · refine .inr ⟨hexLookup (c >>> 4), hexLookup (c &&& 0xF), if_neg hplain, ?_⟩
    have hslash : c ≠ chr '/' := by
      rintro rfl
      exact hplain (by decide)
    have := forall_byte (P := fun c => isDigitOf 16 (hexLookup (c >>> 4)) = true ∧
      isDigitOf 16 (hexLookup (c &&& 0xF)) = true ∧
      UInt8.ofNat (16 * digitVal (hexLookup (c >>> 4)) + digitVal (hexLookup (c &&& 0xF))) = c)
      (by decide +kernel) c
    exact ⟨this.1, this.2.1, this.2.2, hslash⟩

theorem decodeLoop_encode (s : Bytes) : decodeLoop (encode s (bytes "/")) = some s := by
  induction s with
  | nil => rfl
  | cons c s ih =>
    rw [encode, List.flatMap_cons]
    rcases encodeChar_cases c with ⟨h, hc, -⟩ | ⟨a, b, h, ha, hb, hval, -⟩
    · rw [h, List.singleton_append, decodeLoop_plain hc, ← encode, ih]
      rfl
    · rw [h, List.cons_append, List.cons_append, List.singleton_append, decodeLoop_escape, ha, hb, hval,
        ← encode, ih]
      rfl

/-- **What is encoded is decoded back.** -/
theorem decode_encode (s : Bytes) : decode (encode s (bytes "/")) = s := by
  rw [decode, decodeLoop_encode]
  rfl

theorem isPathChar_of_mem_encode {s : Bytes} {c : UInt8} (h : c ∈ encode s (bytes "/")) : isPathChar c = true := by
  obtain ⟨d, -, hd⟩ := List.mem_flatMap.mp h
  rcases encodeChar_cases d with ⟨heq, -, hpath⟩ | ⟨a, b, heq, ha, hb, -, -⟩
  · rw [heq, List.mem_singleton] at hd
    rwa [hd]
  · have hhex := forall_byte (P := fun c => isDigitOf 16 c = true → isPathChar c = true) (by decide +kernel)
    rw [heq] at hd
    simp only [List.mem_cons, List.not_mem_nil, or_false] at hd
    rcases hd with rfl | rfl | rfl
    · decide
    · exact hhex _ ha
    · exact hhex _ hb

theorem length_le_encode (s : Bytes) : s.length ≤ (encode s (bytes "/")).length := by
  have hdecode := length_decode (encode s (bytes "/"))
  rwa [decode_encode] at hdecode

/-- The encoded text begins with a slash exactly when the text does. -/
theorem head_encode (s : Bytes) :
    (encode s (bytes "/")).head? = some (chr '/') ↔ s.head? = some (chr '/') := by
  cases s with
  | nil => rfl
  | cons c s =>
    rw [encode, List.flatMap_cons]
    rcases encodeChar_cases c with ⟨heq, -, -⟩ | ⟨a, b, heq, -, -, -, hc⟩
    · rw [heq, List.singleton_append, List.head?_cons, List.head?_cons]
    · rw [heq, List.cons_append, List.head?_cons, List.head?_cons, Option.some.injEq, Option.some.injEq]
      exact iff_of_false (by decide) hc

end Lsp.Uri
