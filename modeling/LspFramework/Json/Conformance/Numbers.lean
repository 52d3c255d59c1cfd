import LspFramework.Lib.Rfc8259
import LspFramework.Json.Machine

/-!
# What the parser makes of the numbers of RFC 8259

A number with no plus sign in its exponent is a run of number characters that `parseNumber` takes
whole, and it has a value unless `std::stod` throws:

    Representable n → ¬ n.ExplicitPlus → ¬ RoundsUpToNormal n.num n.den →
      ∃ v, NumberToken n.text (.ok v)                                        (numberToken_of_number)

The run ends before a plus sign, and what stands before it is no number:

    n.ExplicitPlus → n.text = t ++ chr '+' :: r → numberValue t ≠ some (.ok v)   (number_cut)
-/

namespace Lsp.Json

open Chars Binary64
open Rfc8259 (Digits Sign Exponent Number)

/-! ## Digits -/

theorem digits_cons {ds : Bytes} (h : Digits ds) : ∃ c s, ds = c :: s ∧ isdigit c = true := by
  cases ds with
  | nil => exact absurd rfl h.1
  | cons c s => exact ⟨c, s, rfl, h.2 c List.mem_cons_self⟩

/-- The next byte, if there is one, continues no significand. -/
def EndsSignificand (r : Bytes) : Prop := ∀ c, r.head? = some c → isdigit c = false ∧ c ≠ chr '.'

theorem significand_number (n : Number) {r : Bytes} (hr : EndsSignificand r) :
    significand 10 (n.int ++ Number.fracText n.frac ++ r) =
      some (valueOf 10 (n.int ++ n.frac.getD []), (n.frac.getD []).length,
        (n.int ++ Number.fracText n.frac).length) := by
  have hp : isDigitOf 10 = isdigit := funext isDigitOf_ten
  have hstop : ∀ c, r.head? = some c → isdigit c = false := fun c hc => (hr c hc).1
  have hint := n.int_ok.1
  cases hf : n.frac with
  | none =>
    have hpoint : r.head? ≠ some (chr '.') := fun h => (hr _ h).2 rfl
    simp only [significand, hp, Number.fracText, List.append_nil, takeWhile_append_stop hint.2 hstop,
      dropWhile_append_stop hint.2 hstop, hpoint, if_false, hint.1, false_and, Option.getD_none,
      List.length_nil, Nat.add_zero]
  | some ds =>
    have hds := n.frac_ok ds hf
    have hdot : ∀ c, (chr '.' :: (ds ++ r)).head? = some c → isdigit c = false := by
      intro c hc
      cases hc
      decide
    simp only [significand, hp, Number.fracText, List.append_assoc, List.cons_append,
      takeWhile_append_stop hint.2 hdot, dropWhile_append_stop hint.2 hdot, List.head?_cons, if_true,
      List.drop_succ_cons, List.drop_zero, takeWhile_append_stop hds.2 hstop, hint.1, false_and,
      if_false, Option.getD_some, List.length_append, List.length_cons]
    rw [Nat.add_comm 1 ds.length]

/-- The number `std::stod` reads from a significand of the RFC and an exponent behind it. -/
theorem number_number (minus : Bool) (n : Number) {r : Bytes} {x : Int} {len num den : Nat}
    (hr : EndsSignificand r) (hhex : ∀ c ∈ n.int ++ Number.fracText n.frac ++ r, tolower c ≠ chr 'x')
    (hx : exponent (bytes "eE") r = (x, len))
    (hnum : num = valueOf 10 (n.int ++ n.frac.getD []) * 10 ^ (x - (n.frac.getD []).length).toNat)
    (hden : den = 10 ^ (-(x - (n.frac.getD []).length)).toNat) :
    number minus (n.int ++ Number.fracText n.frac ++ r) =
      some (round minus num den, decide (RangeError minus num den),
        (n.int ++ Number.fracText n.frac).length + len) := by
  subst hnum hden
  simp only [number, startsWithNoCase_hex hhex, Bool.false_eq_true, if_false, significand_number n hr,
    List.drop_left, hx]

/-! ## Exponents -/

theorem mark_facts {x : Exponent} : x.mark ∈ bytes "eE" ∧ isdigit x.mark = false ∧ x.mark ≠ chr '.' ∧
    tolower x.mark ≠ chr 'x' ∧ isDecimalMark x.mark = true ∧ isNumberChar x.mark = true := by
  rcases x.mark_ok with h | h <;> rw [h] <;> decide

theorem exponent_text (x : Exponent) : exponent (bytes "eE") x.text = (x.value, x.text.length) := by
  obtain ⟨c, s, hds, hc⟩ := digits_cons x.digits_ok
  obtain ⟨-, hm, hp⟩ := digit_facts c hc
  have hrun : x.digits.takeWhile isdigit = x.digits := by
    have := takeWhile_append_stop (r := []) x.digits_ok.2 (by simp)
    rwa [List.append_nil] at this
  have hne := x.digits_ok.1
  have hmark : x.mark ∈ bytes "eE" := mark_facts.1
  unfold Exponent.text Exponent.value
  cases hsign : x.sign with
  | none =>
    have hhead : x.digits.head? = some c := by rw [hds, List.head?_cons]
    simp only [Sign.text, List.cons_append, List.nil_append, exponent, hmark, if_true, hhead, Option.some.injEq,
      hm, hp, or_self, if_false, hrun, hne, List.length_cons, reduceCtorEq]
    rw [Nat.add_comm]
  | some s =>
    cases s with
    | plus =>
      have hpm : chr '+' ≠ chr '-' := by decide
      simp only [Sign.text, List.cons_append, List.nil_append, exponent, hmark, if_true, List.head?_cons,
        Option.some.injEq, hpm, false_or, List.drop_succ_cons, List.drop_zero, hrun, hne, if_false,
        List.length_cons, reduceCtorEq]
      rw [Nat.add_comm]
    | minus =>
      simp only [Sign.text, List.cons_append, List.nil_append, exponent, hmark, if_true, List.head?_cons,
        true_or, List.drop_succ_cons, List.drop_zero, hrun, hne, if_false, List.length_cons]
      rw [Nat.add_comm]

theorem exponent_mark (x : Exponent) : exponent (bytes "eE") [x.mark] = (0, 0) := by
  simp [exponent]

theorem endsSignificand_mark (x : Exponent) (r : Bytes) : EndsSignificand (x.mark :: r) := by
  intro c hc
  cases hc
  exact ⟨mark_facts.2.1, mark_facts.2.2.1⟩

/-! ## The characters of a number -/

theorem mem_significand {n : Number} {c : UInt8} (h : c ∈ n.int ++ Number.fracText n.frac) :
    isdigit c = true ∨ c = chr '.' := by
  rcases List.mem_append.mp h with h | h
  · exact .inl (n.int_ok.1.2 c h)
  · cases hf : n.frac with
    | none =>
      rw [hf] at h
      cases h
    | some ds =>
      rw [hf] at h
      rcases List.mem_cons.mp h with h | h
      · exact .inr h
      · exact .inl ((n.frac_ok ds hf).2 c h)

theorem mem_exponent {x : Exponent} {c : UInt8} (h : c ∈ x.text) :
    c = x.mark ∨ isdigit c = true ∨ c = chr '-' ∨ (c = chr '+' ∧ x.sign = some .plus) := by
  rw [Exponent.text, List.cons_append, List.mem_cons, List.mem_append] at h
  rcases h with h | h | h
  · exact .inl h
  · cases hs : x.sign with
    | none =>
      rw [hs] at h
      cases h
    | some s =>
      rw [hs] at h
      cases s with
      | plus => exact .inr (.inr (.inr ⟨List.mem_singleton.mp h, rfl⟩))
      | minus => exact .inr (.inr (.inl (List.mem_singleton.mp h)))
  · exact .inr (.inl (x.digits_ok.2 c h))

theorem digit_chars : ∀ c : UInt8, isdigit c = true →
    tolower c ≠ chr 'x' ∧ isDecimalMark c = false ∧ isNumberChar c = true :=
  forall_byte (by decide +kernel)

theorem significand_chars {n : Number} {c : UInt8} (h : c ∈ n.int ++ Number.fracText n.frac) :
    tolower c ≠ chr 'x' ∧ isNumberChar c = true := by
  rcases mem_significand h with h | rfl
  · exact ⟨(digit_chars c h).1, (digit_chars c h).2.2⟩
  · decide

theorem exponent_chars {x : Exponent} {c : UInt8} (h : c ∈ x.text) :
    tolower c ≠ chr 'x' ∧ (x.sign ≠ some .plus → isNumberChar c = true) := by
  rcases mem_exponent h with rfl | h | rfl | ⟨rfl, hs⟩
  · exact ⟨mark_facts.2.2.2.1, fun _ => mark_facts.2.2.2.2.2⟩
  · exact ⟨(digit_chars c h).1, fun _ => (digit_chars c h).2.2⟩
  · exact ⟨by decide, fun _ => by decide⟩
  · exact ⟨by decide, fun hne => absurd hs hne⟩

theorem mem_signText {minus : Bool} {c : UInt8} (h : c ∈ signText minus) : c = chr '-' := by
  cases minus with
  | true => exact List.mem_singleton.mp h
  | false => cases h

theorem number_head (n : Number) (r : Bytes) :
    ∃ c s, signText n.minus ++ (n.int ++ r) = c :: s ∧ (isdigit c || c == chr '-') = true := by
  obtain ⟨c, s, hint, hc⟩ := digits_cons n.int_ok.1
  cases n.minus with
  | true => exact ⟨chr '-', n.int ++ r, rfl, by decide⟩
  | false => exact ⟨c, s ++ r, by rw [hint]; rfl, by rw [hc]; rfl⟩

/-! ## Numbers without a plus sign -/

/-- An integer literal fits a 64-bit integer; any other number is zero or a normal `double`. -/
def Representable (n : Number) : Prop :=
  (n.IsInteger → -2 ^ 63 ≤ n.integer ∧ n.integer ≤ 2 ^ 63 - 1) ∧
    (¬ n.IsInteger → n.num = 0 ∨ (round n.minus n.num n.den).IsNormal)

theorem text_eq (n : Number) :
    n.text = signText n.minus ++ (n.int ++ Number.fracText n.frac ++ Number.expText n.exp) := by
  rw [Number.text, signText, List.append_assoc, List.append_assoc, List.append_assoc]

theorem fromCharsInt_digits {minus : Bool} {ds : Bytes} (hds : Digits ds) {lo hi i : Int}
    (hi' : i = if minus then -(valueOf 10 ds : Int) else valueOf 10 ds) (h₁ : lo ≤ i) (h₂ : i ≤ hi) :
    fromCharsInt lo hi (signText minus ++ ds) = (.ok i, (signText minus ++ ds).length) := by
  obtain ⟨c, s, hcs, hc⟩ := digits_cons hds
  have hrun : ds.takeWhile isdigit = ds := by
    have := takeWhile_append_stop (r := []) hds.2 (by simp)
    rwa [List.append_nil] at this
  cases minus with
  | true =>
    simp only [if_true] at hi'
    simp only [signText, if_true, List.singleton_append, fromCharsInt, List.head?_cons, List.drop_succ_cons,
      List.drop_zero, hrun, hds.1, if_false, ← hi', List.length_cons]
    rw [if_neg (by omega)]
  | false =>
    have hhead : ds.head? ≠ some (chr '-') := by
      rw [hcs, List.head?_cons, ne_eq, Option.some.injEq]
      exact (digit_facts c hc).2.1
    simp only [Bool.false_eq_true, if_false] at hi'
    simp only [signText, Bool.false_eq_true, if_false, List.nil_append, fromCharsInt, hhead, hrun, hds.1, ← hi']
    rw [if_neg (by omega)]

theorem numberValue_integer {n : Number} (hn : n.IsInteger) (hr : Representable n) :
    ∃ v, numberValue n.text = some (.ok v) := by
  have htext : n.text = signText n.minus ++ n.int := by
    rw [text_eq, hn.1, hn.2, Number.fracText, Number.expText, List.append_nil, List.append_nil]
  have hmark : (signText n.minus ++ n.int).any isDecimalMark = false := by
    rw [List.any_eq_false]
    intro c hc
    rcases List.mem_append.mp hc with h | h
    · rw [mem_signText h]
      decide
    · rw [(digit_chars c (n.int_ok.1.2 c h)).2.1]
      exact Bool.false_ne_true
  have hscale : n.scale = 0 := by simp [Number.scale, hn.1, hn.2]
  have hval : n.integer = if n.minus then -(valueOf 10 n.int : Int) else valueOf 10 n.int := by
    simp [Number.integer, Number.num, hscale, hn.1]
  obtain ⟨h₁, h₂⟩ := hr.1 hn
  have hread := fromCharsInt_digits n.int_ok.1 hval h₁ h₂
  rw [htext]
  simp only [numberValue, hmark, Bool.false_eq_true, if_false, hread, ne_eq, not_true_eq_false]
  split
  · exact ⟨_, rfl⟩
  · exact ⟨_, rfl⟩

/-- What `std::stod` reads from a number is the rounded number, where it is in range. -/
theorem stod_number (n : Number) :
    stod n.text = if RangeError n.minus n.num n.den then .error .outOfRange
      else .ok (round n.minus n.num n.den, n.text.length) := by
  have hhex : ∀ c ∈ n.int ++ Number.fracText n.frac ++ Number.expText n.exp, tolower c ≠ chr 'x' := by
    intro c hc
    rcases List.mem_append.mp hc with h | h
    · exact (significand_chars h).1
    · cases hx : n.exp with
      | none =>
        rw [hx] at h
        cases h
      | some x =>
        rw [hx] at h
        exact (exponent_chars h).1
  have hend : EndsSignificand (Number.expText n.exp) := by
    cases n.exp with
    | none => exact nofun
    | some x => exact endsSignificand_mark x _
  have hexp : exponent (bytes "eE") (Number.expText n.exp) =
      ((n.exp.map Exponent.value).getD 0, (Number.expText n.exp).length) := by
    cases n.exp with
    | none => rfl
    | some x => exact exponent_text x
  have hnum := number_number n.minus n hend hhex hexp (rfl : n.num = _) (rfl : n.den = _)
  obtain ⟨c, s, hcs, hc⟩ := digits_cons n.int_ok.1
  rw [text_eq]
  have hstod := stod_signed n.minus (s := s ++ Number.fracText n.frac ++ Number.expText n.exp) hc
  simp only [← List.cons_append, ← hcs] at hstod
  rw [hstod, hnum]
  by_cases hrange : RangeError n.minus n.num n.den
  · rw [if_pos hrange, decide_eq_true hrange]
  · rw [if_neg hrange, decide_eq_false hrange]
    simp only [List.length_append]

theorem den_ne_zero (n : Number) : n.den ≠ 0 := Nat.ne_of_gt (Nat.pow_pos (by omega))

theorem not_roundsUp_integer {n : Number} (hn : n.IsInteger) : ¬ RoundsUpToNormal n.num n.den := by
  have hscale : n.scale = 0 := by simp [Number.scale, hn.1, hn.2]
  have hden : n.den = 1 := by rw [Number.den, hscale]; rfl
  rintro ⟨hlow, hup⟩
  rw [hden] at hlow hup
  by_cases hnum : n.num = 0
  · rw [hnum, Nat.zero_mul] at hlow
    omega
  · have := Nat.mul_le_mul (by omega : 1 ≤ n.num) (Nat.pow_le_pow_right (by omega : 0 < 2) (by omega : 54 ≤ 1076))
    omega

theorem numberValue_decimal {n : Number} (hn : ¬ n.IsInteger) (hr : Representable n) :
    numberValue n.text = if RoundsUpToNormal n.num n.den then some (.error .outOfRange)
      else some (.ok (.decimal (round n.minus n.num n.den))) := by
  have hmark : n.text.any isDecimalMark = true := by
    rw [List.any_eq_true, text_eq]
    cases hf : n.frac with
    | some ds => exact ⟨chr '.', by simp [Number.fracText], by decide⟩
    | none =>
      cases hx : n.exp with
      | none => exact absurd ⟨hf, hx⟩ hn
      | some x => exact ⟨x.mark, by simp [Number.expText, Exponent.text], mark_facts.2.2.2.2.1⟩
  simp only [numberValue, hmark, if_true, stod_number, rangeError_iff (den_ne_zero n) (hr.2 hn)]
  by_cases hu : RoundsUpToNormal n.num n.den
  · simp only [if_pos hu]
  · simp only [if_neg hu, Nat.lt_irrefl, if_false]

/-- The characters of a number without a plus sign make one run. -/
theorem text_chars {n : Number} (hp : ¬ n.ExplicitPlus) : ∀ c ∈ n.text, isNumberChar c = true := by
  intro c hc
  rw [text_eq] at hc
  rcases List.mem_append.mp hc with h | h
  · rw [mem_signText h]
    decide
  · rcases List.mem_append.mp h with h | h
    · exact (significand_chars h).2
    · cases hx : n.exp with
      | none =>
        rw [hx] at h
        cases h
      | some x =>
        rw [hx] at h
        exact (exponent_chars h).2 fun hs => hp ⟨x, hx, hs⟩

theorem text_head (n : Number) : ∃ c s, n.text = c :: s ∧ (isdigit c || c == chr '-') = true := by
  rw [text_eq, List.append_assoc]
  exact number_head n _

/-- **A number without an explicit plus sign is a number token with a value**, where it is in range. -/
theorem numberToken_of_number {n : Number} (hr : Representable n) (hp : ¬ n.ExplicitPlus)
    (hu : ¬ RoundsUpToNormal n.num n.den) : ∃ v, NumberToken n.text (.ok v) := by
  have hvalue : ∃ v, numberValue n.text = some (.ok v) := by
    by_cases hn : n.IsInteger
    · exact numberValue_integer hn hr
    · exact ⟨_, (numberValue_decimal hn hr).trans (if_neg hu)⟩
  obtain ⟨v, hv⟩ := hvalue
  exact ⟨v, text_head n, text_chars hp, hv⟩

/-- `std::stod` throws at a number that rounds up to the least normal `double`. -/
theorem numberValue_roundsUp {n : Number} (hr : Representable n) (hu : RoundsUpToNormal n.num n.den) :
    numberValue n.text = some (.error .outOfRange) :=
  (numberValue_decimal (fun hn => not_roundsUp_integer hn hu) hr).trans (if_pos hu)

/-! ## Numbers with a plus sign -/

/-- What stands before the sign has no value: `stod` reads the significand only, if it does not throw. -/
theorem numberValue_mark (n : Number) (x : Exponent) (v : Value) :
    numberValue (signText n.minus ++ (n.int ++ Number.fracText n.frac ++ [x.mark])) ≠ some (.ok v) := by
  intro hv
  have hmark := @mark_facts x
  have hany : (signText n.minus ++ (n.int ++ Number.fracText n.frac ++ [x.mark])).any isDecimalMark = true :=
    List.any_eq_true.mpr ⟨x.mark, by simp, hmark.2.2.2.2.1⟩
  have hhex : ∀ c ∈ n.int ++ Number.fracText n.frac ++ [x.mark], tolower c ≠ chr 'x' := by
    intro c hc
    rcases List.mem_append.mp hc with h | h
    · exact (significand_chars h).1
    · rw [List.mem_singleton.mp h]
      exact hmark.2.2.2.1
  have hnum := number_number n.minus n (endsSignificand_mark x []) hhex (exponent_mark x) rfl rfl
  obtain ⟨c, s, hcs, hc⟩ := digits_cons n.int_ok.1
  have hstod := stod_signed n.minus (s := s ++ Number.fracText n.frac ++ [x.mark]) hc
  simp only [← List.cons_append, ← hcs] at hstod
  rw [hnum] at hstod
  simp only [numberValue, hany, if_true] at hv
  rw [hstod] at hv
  split at hv
  · cases hv
  · next d idx heq =>
    split at heq
    · cases heq
    · cases heq
    · next v' len' hsome =>
      simp only [Option.some.injEq, Prod.mk.injEq] at hsome
      obtain ⟨rfl, -, rfl⟩ := hsome
      cases heq
      rw [if_pos (by simp only [List.length_append, List.length_singleton]; omega)] at hv
      cases hv

/-- **A number with an explicit plus sign is cut before the sign, and what is left has no value.** -/
theorem number_cut {n : Number} (hp : n.ExplicitPlus) :
    ∃ t s, n.text = t ++ chr '+' :: s ∧ (∃ c r, t = c :: r ∧ (isdigit c || c == chr '-') = true) ∧
      (∀ c ∈ t, isNumberChar c = true) ∧ ∀ v, numberValue t ≠ some (.ok v) := by
  obtain ⟨x, hx, hsign⟩ := hp
  refine ⟨signText n.minus ++ (n.int ++ Number.fracText n.frac ++ [x.mark]), x.digits, ?_, ?_, ?_,
    numberValue_mark n x⟩
  · rw [text_eq, hx, Number.expText, Exponent.text, hsign]
    simp [Sign.text]
  · rw [List.append_assoc]
    exact number_head n _
  · intro c hc
    rcases List.mem_append.mp hc with h | h
    · rw [mem_signText h]
      decide
    · rcases List.mem_append.mp h with h | h
      · exact (significand_chars h).2
      · rw [List.mem_singleton.mp h]
        exact (@mark_facts x).2.2.2.2.2

end Lsp.Json
