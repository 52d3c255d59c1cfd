import LspFramework.Lib.Chars

/-!
# UTF-8 and UTF-16

The encodings of code points, for surrogates too, which have a UTF-8 form of three bytes like any
other code point below `0x10000`.  Bytes determine the code points they encode, and these determine
the UTF-16 code units:

    utf8 n ++ s = utf8 m ++ t → n = m ∧ s = t                          (utf8_append_inj)
    ns.flatMap utf8 = ms.flatMap utf8 → ns = ms                        (flatMap_utf8_inj)
-/

namespace Unicode

/-! ## Encodings -/

def utf8 (n : Nat) : Bytes :=
  if n < 0x80 then [UInt8.ofNat n]
  else if n < 0x800 then [UInt8.ofNat (0xC0 + n / 0x40), UInt8.ofNat (0x80 + n % 0x40)]
  else if n < 0x10000 then
    [UInt8.ofNat (0xE0 + n / 0x1000), UInt8.ofNat (0x80 + n / 0x40 % 0x40), UInt8.ofNat (0x80 + n % 0x40)]
  else
    [UInt8.ofNat (0xF0 + n / 0x40000), UInt8.ofNat (0x80 + n / 0x1000 % 0x40),
      UInt8.ofNat (0x80 + n / 0x40 % 0x40), UInt8.ofNat (0x80 + n % 0x40)]

def utf16 (n : Nat) : List Nat :=
  if n < 0x10000 then [n] else [0xD800 + (n - 0x10000) / 0x400, 0xDC00 + (n - 0x10000) % 0x400]

/-- The bytes are the UTF-8 form of some characters. -/
def ValidUtf8 (s : Bytes) : Prop := ∃ cs : List Char, s = cs.flatMap String.utf8EncodeChar

/-! ## Lemmas -/

theorem char_lt (c : Char) : c.toNat < 0x110000 := by
  rcases c.valid with h | h
  · exact Nat.lt_trans h (by decide)
  · exact h.2

theorem utf16_inj {n m : Nat} (h : utf16 n = utf16 m) : n = m := by
  unfold utf16 at h
  split at h
  · split at h
    · exact List.head_eq_of_cons_eq h
    · cases h
  · split at h
    · cases h
    · simp only [List.cons.injEq, and_true] at h
      omega

/-- Two units are a pair of surrogates. -/
theorem utf16_pair {n a b : Nat} (hn : n < 0x110000) (h : utf16 n = [a, b]) :
    0x10000 ≤ n ∧ (0xD800 ≤ a ∧ a < 0xDC00) ∧ 0xDC00 ≤ b ∧ b < 0xE000 := by
  unfold utf16 at h
  split at h
  · cases h
  · simp only [List.cons.injEq, and_true] at h
    omega

theorem utf8_char (c : Char) : String.utf8EncodeChar c = utf8 c.toNat := by
  have hc := char_lt c
  have hval : c.val.toNat = c.toNat := rfl
  unfold String.utf8EncodeChar utf8
  simp only [hval, show ∀ k, (c.toNat ≤ k) = (c.toNat < k + 1) from fun k => by rw [Nat.lt_succ_iff]]
  split
  · rfl
  · split
    · have h₁ : c.toNat / 64 % 32 + 192 = 192 + c.toNat / 64 := by omega
      have h₂ : c.toNat % 64 + 128 = 128 + c.toNat % 64 := by omega
      rw [h₁, h₂]
    · split
      · have h₁ : c.toNat / 4096 % 16 + 224 = 224 + c.toNat / 4096 := by omega
        have h₂ : c.toNat / 64 % 64 + 128 = 128 + c.toNat / 64 % 64 := by omega
        have h₃ : c.toNat % 64 + 128 = 128 + c.toNat % 64 := by omega
        rw [h₁, h₂, h₃]
      · have h₁ : c.toNat / 262144 % 8 + 240 = 240 + c.toNat / 262144 := by omega
        have h₂ : c.toNat / 4096 % 64 + 128 = 128 + c.toNat / 4096 % 64 := by omega
        have h₃ : c.toNat / 64 % 64 + 128 = 128 + c.toNat / 64 % 64 := by omega
        have h₄ : c.toNat % 64 + 128 = 128 + c.toNat % 64 := by omega
        rw [h₁, h₂, h₃, h₄]

/-- The bytes of the form as numbers. -/
theorem ofNat_eq_iff {a b : Nat} (ha : a < 256) (hb : b < 256) : UInt8.ofNat a = UInt8.ofNat b ↔ a = b := by
  rw [← UInt8.toNat_inj, UInt8.toNat_ofNat', UInt8.toNat_ofNat', Nat.mod_eq_of_lt ha, Nat.mod_eq_of_lt hb]

/-- **The form of a code point is read off the front of any text it begins.** -/
theorem utf8_append_inj {n m : Nat} (hn : n < 0x110000) (hm : m < 0x110000) {s t : Bytes}
    (h : utf8 n ++ s = utf8 m ++ t) : n = m ∧ s = t := by
  -- the first byte tells the length of the form, and the bytes have the digits of the code point
  have hcases : ∀ k, k < 0x80 ∨ (0x80 ≤ k ∧ k < 0x800) ∨ (0x800 ≤ k ∧ k < 0x10000) ∨ 0x10000 ≤ k := by
    omega
  unfold utf8 at h
  rcases hcases n with hn' | hn' | hn' | hn' <;> rcases hcases m with hm' | hm' | hm' | hm' <;>
    simp (disch := omega) only [if_pos, if_neg, List.cons_append, List.nil_append, List.cons.injEq,
      ofNat_eq_iff] at h
  all_goals
    first
    | omega
    | exact ⟨h.1, h.2⟩
    | exact ⟨by omega, h.2.2⟩
    | exact ⟨by omega, h.2.2.2⟩
    | exact ⟨by omega, h.2.2.2.2⟩

theorem flatMap_utf8_inj {ns ms : List Nat} (hn : ∀ n ∈ ns, n < 0x110000) (hm : ∀ m ∈ ms, m < 0x110000)
    (h : ns.flatMap utf8 = ms.flatMap utf8) : ns = ms := by
  have hne : ∀ n s, utf8 n ++ s ≠ [] := by
    intro n s
    unfold utf8
    split
    · simp
    · split
      · simp
      · split <;> simp
  induction ns generalizing ms with
  | nil =>
    cases ms with
    | nil => rfl
    | cons m ms => exact absurd h.symm (hne m _)
  | cons n ns ih =>
    cases ms with
    | nil => exact absurd h (hne n _)
    | cons m ms =>
      rw [List.flatMap_cons, List.flatMap_cons] at h
      obtain ⟨hnm, hrest⟩ := utf8_append_inj (hn n List.mem_cons_self) (hm m List.mem_cons_self) h
      rw [hnm, ih (fun k hk => hn k (List.mem_cons_of_mem _ hk))
        (fun k hk => hm k (List.mem_cons_of_mem _ hk)) hrest]

/-- Beyond ASCII all bytes of the form have the high bit. -/
theorem utf8_high {n : Nat} (hn : 0x80 ≤ n) (hlt : n < 0x110000) {b : UInt8} (hb : b ∈ utf8 n) : 0x80 ≤ b := by
  rw [UInt8.le_iff_toNat_le]
  unfold utf8 at hb
  split at hb
  · omega
  · split at hb
    · simp only [List.mem_cons, List.not_mem_nil, or_false] at hb
      rcases hb with rfl | rfl <;> simp only [UInt8.toNat_ofNat'] <;> simp <;> omega
    · split at hb
      · simp only [List.mem_cons, List.not_mem_nil, or_false] at hb
        rcases hb with rfl | rfl | rfl <;> simp only [UInt8.toNat_ofNat'] <;> simp <;> omega
      · simp only [List.mem_cons, List.not_mem_nil, or_false] at hb
        rcases hb with rfl | rfl | rfl | rfl <;> simp only [UInt8.toNat_ofNat'] <;> simp <;> omega

theorem utf8_ascii {n : Nat} (hn : n < 0x80) : utf8 n = [UInt8.ofNat n] := if_pos hn

end Unicode
