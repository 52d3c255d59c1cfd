import LspFramework.Json.Soundness

/-!
# Texts that can be continued

`Viable text`: the text is the beginning of one that `parse` accepts.  `StartsValue`, `StartsElements`,
`StartsMembers` and `StartsKey` say the same inside the containers of the grammar, and the lemmas lead
from the inside out:

    StartsValue u → Separator first s → StartsElements first (s ++ u)          (StartsValue.element)
    StartsElements true u → Ws w → StartsValue (w ++ '[' :: u)                  (StartsElements.value)
    StartsValue u → Viable u                                                     (StartsValue.viable)

The keys of an object are distinct after unescaping, so an object is continued with a key that is new; and
an unfinished key, whatever stands in it, can be made one that is new (`OpenBody.fresh`).
-/

namespace Lsp.Json

open Chars

/-- The text is the beginning of one that `parse` accepts. -/
def Viable (text : Bytes) : Prop := ∃ rest v, parse (text ++ rest) = .ok v

/-! ## Fresh keys -/

theorem unescapeUnicode_bounds (s : Bytes) :
    (unescapeUnicode s).1 ≠ [] ∧ (unescapeUnicode s).2 ≤ 4 := by
  unfold unescapeUnicode
  split
  · split
    · refine ⟨?_, le_refl 4⟩
      simp only [appendCodePointAsUtf8]
      split_ifs <;> exact List.cons_ne_nil _ _
    · next len _ hres =>
      have hlen : len ≤ (s.take 4).length := by
        rw [show len = (fromChars 16 (2 ^ 32 - 1) (s.take 4)).2 by rw [hres]]
        have := (List.takeWhile_prefix (isDigitOf 16) (l := s.take 4)).length_le
        simp only [fromChars]
        split_ifs
        · exact Nat.zero_le _
        · exact this
        · exact this
      rw [List.length_take] at hlen
      exact ⟨by simp [bytes], by omega⟩
  · next h => exact ⟨by simp [bytes], by omega⟩

theorem unescape_bounds (e : UInt8) (s : Bytes) : (unescape e s).1 ≠ [] ∧ (unescape e s).2 ≤ 4 := by
  unfold unescape
  split
  all_goals first
    | exact unescapeUnicode_bounds s
    | exact ⟨List.cons_ne_nil _ _, Nat.zero_le _⟩

/-- Unescaping makes a text shorter by a constant factor at most. -/
theorem length_unescapeLoop (skip : Nat) (s : Bytes) :
    s.length ≤ 6 * (unescapeLoop skip s).length + skip := by
  fun_induction unescapeLoop skip s with
  | case1 => simp
  | case2 skip c s ih =>
    simp only [List.length_cons]
    omega
  | case3 c => simp
  | case4 e s ih =>
    obtain ⟨hne, hskip⟩ := unescape_bounds e s
    have := List.length_pos_of_ne_nil hne
    simp only [List.length_cons, List.length_append]
    omega
  | case5 c e s hc ih =>
    simp only [List.length_cons] at ih ⊢
    omega

theorem exists_length_bound (keys : List Bytes) : ∃ N, ∀ key ∈ keys, key.length < N := by
  induction keys with
  | nil => exact ⟨0, by simp⟩
  | cons key keys ih =>
    obtain ⟨N, hN⟩ := ih
    refine ⟨max N (key.length + 1), ?_⟩
    intro key' hkey'
    rcases List.mem_cons.mp hkey' with rfl | hmem
    · omega
    · have := hN key' hmem
      omega

/-- The inside of a string token up to some place: the last `\` may wait for its byte. -/
def OpenBody (body : Bytes) : Prop :=
  StringBody body ∨ ∃ front, StringBody front ∧ body = front ++ [chr '\\']

theorem stringBody_fill (k : Nat) : StringBody (List.replicate k (chr 'z')) := by
  induction k with
  | zero => exact .nil
  | succ k ih => exact .plain (by decide) (by decide) (by decide) ih

theorem OpenBody.fill {body : Bytes} (h : OpenBody body) (k : Nat) :
    StringBody (body ++ List.replicate (k + 1) (chr 'z')) := by
  rcases h with h | ⟨front, h, rfl⟩
  · exact h.append (stringBody_fill _)
  · have hpair : StringBody (chr '\\' :: chr 'z' :: List.replicate k (chr 'z')) :=
      .escape (by decide) (stringBody_fill k)
    rw [List.append_assoc]
    exact h.append hpair

/-- **Whatever stands in an unfinished string, it can be continued to a key that is new.** -/
theorem OpenBody.fresh {body : Bytes} (h : OpenBody body) (keys : List Bytes) :
    ∃ rest key, StringToken (chr '"' :: body ++ rest) key ∧ key ∉ keys := by
  obtain ⟨N, hN⟩ := exists_length_bound keys
  have hfill := h.fill (6 * N)
  refine ⟨List.replicate (6 * N + 1) (chr 'z') ++ [chr '"'], _, ⟨_, hfill, by simp, rfl⟩, ?_⟩
  intro hmem
  have hshort := hN _ hmem
  have hlong := length_unescapeLoop 0 (body ++ List.replicate (6 * N + 1) (chr 'z'))
  have hkey : fromStringLiteral (chr '"' :: body ++ (List.replicate (6 * N + 1) (chr 'z') ++ [chr '"'])) =
      unescapeLoop 0 (body ++ List.replicate (6 * N + 1) (chr 'z')) := by
    rw [fromStringLiteral, ← List.append_assoc, List.cons_append, removeQuotes_quoted]
  rw [hkey] at hshort
  rw [List.length_append, List.length_replicate] at hlong
  omega

theorem exists_fresh_key (keys : List Bytes) : ∃ k key, StringToken k key ∧ key ∉ keys := by
  obtain ⟨rest, key, hk, hnew⟩ := OpenBody.fresh (.inl .nil) keys
  exact ⟨_, key, hk, hnew⟩

/-! ## Texts that can be continued -/

def StartsValue (u : Bytes) : Prop := ∃ rest w t v, u ++ rest = w ++ t ∧ Ws w ∧ Derives t v

def StartsElements (first : Bool) (u : Bytes) : Prop := ∃ rest vs, Elements first (u ++ rest) vs

/-- The same behind members with the given keys. -/
def StartsMembers (first : Bool) (keys : List Bytes) (u : Bytes) : Prop :=
  ∃ rest ms, Members first (u ++ rest) ms ∧ (keys ++ ms.map Prod.fst).Nodup

/-- White space, a key that is new, and what stands up to the colon. -/
def StartsKey (keys : List Bytes) (u : Bytes) : Prop :=
  ∃ rest w k key w₁, u ++ rest = w ++ (k ++ (w₁ ++ [chr ':'])) ∧ Ws w ∧ StringToken k key ∧ key ∉ keys ∧ Ws w₁

theorem derives_zero : Derives [chr '0'] (.integer 0) :=
  .scalar (.number ⟨⟨_, _, rfl, by decide⟩, List.all_eq_true.mp rfl, rfl⟩)

theorem startsValue_ws {w : Bytes} (hw : Ws w) : StartsValue w := ⟨_, w, _, _, rfl, hw, derives_zero⟩

theorem StartsValue.viable {u : Bytes} (h : StartsValue u) : Viable u := by
  obtain ⟨rest, w, t, v, hu, hw, ht⟩ := h
  refine ⟨rest, v, parse_text ⟨w, t, [], hw, ht, by simp [Ws], ?_⟩⟩
  rw [List.append_nil, hu]

theorem startsElements_close {first : Bool} {w : Bytes} (hw : Ws w) : StartsElements first w :=
  ⟨_, _, .close hw⟩

theorem StartsValue.element {first : Bool} {s u : Bytes} (h : StartsValue u) (hs : Separator first s) :
    StartsElements first (s ++ u) := by
  obtain ⟨rest, w, t, v, hu, hw, ht⟩ := h
  refine ⟨rest ++ [chr ']'], [v], ?_⟩
  have hitem := Elements.item (hs.append_ws hw) ht (.close (w := []) (by simp [Ws]))
  have htext : s ++ u ++ (rest ++ [chr ']']) = s ++ w ++ t ++ ([] ++ [chr ']']) := by
    simp only [List.append_assoc, List.nil_append]
    rw [← List.append_assoc u, hu, List.append_assoc]
  rwa [htext]

theorem StartsElements.later {first : Bool} {s t u : Bytes} {v : Value} (h : StartsElements false u)
    (hs : Separator first s) (ht : Derives t v) : StartsElements first (s ++ t ++ u) := by
  obtain ⟨rest, vs, hvs⟩ := h
  refine ⟨rest, v :: vs, ?_⟩
  rw [List.append_assoc (s ++ t)]
  exact .item hs ht hvs

theorem StartsElements.value {u w : Bytes} (h : StartsElements true u) (hw : Ws w) :
    StartsValue (w ++ chr '[' :: u) := by
  obtain ⟨rest, vs, hvs⟩ := h
  exact ⟨rest, w, _, _, by rw [List.append_assoc, List.cons_append], hw, .array hvs⟩

theorem startsMembers_close {first : Bool} {keys : List Bytes} {w : Bytes} (hnd : keys.Nodup) (hw : Ws w) :
    StartsMembers first keys w :=
  ⟨_, _, .close hw, by simpa using hnd⟩

theorem nodup_snoc {keys : List Bytes} {key : Bytes} (hnd : keys.Nodup) (hnew : key ∉ keys) :
    (keys ++ [key]).Nodup := by
  rw [List.nodup_append]
  refine ⟨hnd, by simp, ?_⟩
  intro a ha b hb hab
  rw [hab, List.mem_singleton.mp hb] at ha
  exact hnew ha

theorem StartsValue.member {first : Bool} {keys : List Bytes} {s k key w₁ u : Bytes} (h : StartsValue u)
    (hnd : keys.Nodup) (hs : Separator first s) (hk : StringToken k key) (hnew : key ∉ keys) (hw₁ : Ws w₁) :
    StartsMembers first keys (s ++ (k ++ (w₁ ++ chr ':' :: u))) := by
  obtain ⟨rest, w, t, v, hu, hw, ht⟩ := h
  refine ⟨rest ++ [chr '}'], [(key, v)], ?_, ?_⟩
  · have hitem := Members.item hs hk hw₁ hw ht (.close (w := []) (by simp [Ws]))
    have htext : s ++ (k ++ (w₁ ++ chr ':' :: u)) ++ (rest ++ [chr '}']) =
        s ++ k ++ w₁ ++ chr ':' :: w ++ t ++ ([] ++ [chr '}']) := by
      simp only [List.append_assoc, List.nil_append, List.cons_append]
      rw [← List.append_assoc u, hu, List.append_assoc]
    rwa [htext]
  · exact nodup_snoc hnd hnew

theorem StartsMembers.of_append {first : Bool} {keys : List Bytes} {u rest : Bytes}
    (h : StartsMembers first keys (u ++ rest)) : StartsMembers first keys u := by
  obtain ⟨rest', ms, hms, hnd⟩ := h
  exact ⟨rest ++ rest', ms, by rwa [← List.append_assoc], hnd⟩

theorem StartsKey.member {first : Bool} {keys : List Bytes} {s u : Bytes} (h : StartsKey keys u)
    (hnd : keys.Nodup) (hs : Separator first s) : StartsMembers first keys (s ++ u) := by
  obtain ⟨rest, w, k, key, w₁, hu, hw, hk, hnew, hw₁⟩ := h
  have hnone : StartsValue [] := startsValue_ws (by simp [Ws])
  have hmember := hnone.member hnd (hs.append_ws hw) hk hnew hw₁
  rw [List.append_assoc, ← hu, ← List.append_assoc] at hmember
  exact hmember.of_append

theorem StartsMembers.later {first : Bool} {keys : List Bytes} {s k key w₁ w₂ t u : Bytes} {v : Value}
    (h : StartsMembers false (keys ++ [key]) u) (hs : Separator first s) (hk : StringToken k key)
    (hw₁ : Ws w₁) (hw₂ : Ws w₂) (ht : Derives t v) :
    StartsMembers first keys (s ++ (k ++ (w₁ ++ chr ':' :: (w₂ ++ (t ++ u))))) := by
  obtain ⟨rest, ms, hms, hnd⟩ := h
  refine ⟨rest, (key, v) :: ms, ?_, ?_⟩
  · have hitem := Members.item hs hk hw₁ hw₂ ht hms
    simpa only [List.append_assoc, List.cons_append] using hitem
  · simpa only [List.append_assoc, List.singleton_append, List.map_cons] using hnd

theorem StartsMembers.value {u w : Bytes} (h : StartsMembers true [] u) (hw : Ws w) :
    StartsValue (w ++ chr '{' :: u) := by
  obtain ⟨rest, ms, hms, hnd⟩ := h
  exact ⟨rest, w, _, _, by rw [List.append_assoc, List.cons_append], hw, .object hms (by simpa using hnd)⟩

end Lsp.Json
