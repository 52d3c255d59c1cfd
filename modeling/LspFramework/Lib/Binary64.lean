import LspFramework.Lib.Chars

/-!
# IEEE binary64 numbers and `std::stod`

A finite number is `± mant * 2 ^ exp` in canonical form (`Canonical`), so every number
has one representation.  `round` is rounding to nearest, ties to even; `stod` reads the
longest numeric prefix `strtod` accepts (decimal, hexadecimal, `inf`, `nan`) and throws
where the C++ function does:

* `invalidArgument`: there is no numeric prefix;
* `outOfRange` (`RangeError`): the value overflows, or it is tiny and its `double` is not exact.
  Tiny is what stays below the normal numbers when it is rounded to 53 bits with no least
  exponent, so a tiny value can have a normal `double`: the least one (`RoundsUpToNormal`).
-/

open Chars

/-- Exceptions of the C++ standard library. -/
inductive StdException where
  | invalidArgument
  | outOfRange
  | lengthError
  deriving DecidableEq, Repr

namespace Binary64

/-- A normal significand (53 bits) or a subnormal one at the least exponent. -/
def Canonical (mant : Nat) (exp : Int) : Prop :=
  mant < 2 ^ 53 ∧ -1074 ≤ exp ∧ exp ≤ 971 ∧ (2 ^ 52 ≤ mant ∨ exp = -1074)

instance (mant : Nat) (exp : Int) : Decidable (Canonical mant exp) :=
  inferInstanceAs (Decidable (_ ∧ _ ∧ _ ∧ (_ ∨ _)))

end Binary64

inductive Binary64 where
  | nan
  | inf (neg : Bool)
  | finite (neg : Bool) (mant : Nat) (exp : Int) (h : Binary64.Canonical mant exp)
  deriving DecidableEq, Repr

namespace Binary64

def zero (neg : Bool) : Binary64 := .finite neg 0 (-1074) (by decide)

/-- `operator==`: NaN differs from everything, the two zeros are equal. -/
def eq : Binary64 → Binary64 → Bool
  | .nan, _ => false
  | _, .nan => false
  | .inf s, .inf s' => s == s'
  | .inf _, .finite .. => false
  | .finite .., .inf _ => false
  | .finite s m e _, .finite s' m' e' _ => (m == 0 && m' == 0) || (s == s' && m == m' && e == e')

/-! ## Rounding -/

/-- `⌊log₂ (num / den)⌋` for positive arguments. -/
def ratLog2 (num den : Nat) : Int :=
  let k : Int := (Nat.log2 num : Int) - Nat.log2 den
  if den * 2 ^ k.toNat ≤ num * 2 ^ (-k).toNat then k else k - 1

/-- The integer nearest to `n / d`, ties to even. -/
def nearest (n d : Nat) : Nat :=
  let m := n / d
  let r := n % d
  if d < 2 * r ∨ (2 * r = d ∧ m % 2 = 1) then m + 1 else m

/-- `num / den` in units of `2 ^ e`: significand and exponent, and whether they are exact. -/
def roundAt (e : Int) (num den : Nat) : Nat × Int × Bool :=
  let n := num * 2 ^ (-e).toNat
  let d := den * 2 ^ e.toNat
  let m := nearest n d
  if m = 2 ^ 53 then (2 ^ 52, e + 1, n % d = 0) else (m, e, n % d = 0)

/-- Significand and exponent of `num / den`, and whether they are exact. -/
def roundParts (num den : Nat) : Nat × Int × Bool :=
  roundAt (max (ratLog2 num den - 52) (-1074)) num den

/-- `num / den` to nearest, ties to even; infinity when the result is too large. -/
def round (neg : Bool) (num den : Nat) : Binary64 :=
  if num = 0 then zero neg
  else
    let p := roundParts num den
    if h : Canonical p.1 p.2.1 then .finite neg p.1 p.2.1 h else .inf neg

/-- Below the normal numbers when rounded to 53 bits with no least exponent. -/
def Tiny (num den : Nat) : Prop := (roundAt (ratLog2 num den - 52) num den).2.1 < -1074

/-- `strtod` reports `ERANGE`: an overflow, or an underflow as IEEE 754 has it after rounding. -/
def RangeError (neg : Bool) (num den : Nat) : Prop :=
  num ≠ 0 ∧ (round neg num den = .inf neg ∨ (Tiny num den ∧ (roundParts num den).2.2 = false))

instance (neg : Bool) (num den : Nat) : Decidable (RangeError neg num den) :=
  inferInstanceAs (Decidable (_ ∧ (_ ∨ ((_ : Int) < _ ∧ _))))

/-- The conversion of an integer type to `double`. -/
def ofInt (i : Int) : Binary64 := round (decide (i < 0)) i.natAbs 1

/-- The integer part, towards zero. -/
def truncate : Binary64 → Option Int
  | .finite neg m e _ =>
    let q : Int := m * 2 ^ e.toNat / 2 ^ (-e).toNat
    some (if neg then -q else q)
  | _ => none

/-- The number has no fractional part. -/
def IsIntegral : Binary64 → Prop
  | .finite _ m e _ => 2 ^ (-e).toNat ∣ m * 2 ^ e.toNat
  | _ => False

instance : DecidablePred IsIntegral
  | .finite _ m e _ => inferInstanceAs (Decidable (2 ^ (-e).toNat ∣ m * 2 ^ e.toNat))
  | .nan => .isFalse id
  | .inf _ => .isFalse id

/-- The integer part is a 32-bit integer. -/
def InInt32 (d : Binary64) : Prop :=
  ∃ q, d.truncate = some q ∧ Int32.minValue.toInt ≤ q ∧ q ≤ Int32.maxValue.toInt

/-- The conversion of `double` to an integer type of the given bounds: towards zero.  Outside
them it is undefined in C++; here it gives the lower bound. -/
def toInteger (lo hi : Int) (d : Binary64) : Int :=
  match d.truncate with
  | some i => if lo ≤ i ∧ i ≤ hi then i else lo
  | none => lo

/-- The conversion of `double` to `float`, as the `double` of the same value: 24 significant bits
and the least exponent of binary32, to nearest, ties to even. -/
def toSingle : Binary64 → Binary64
  | .nan => .nan
  | .inf neg => .inf neg
  | .finite neg m e h =>
    let low := max (Nat.log2 m + e - 23) (-149)
    if low ≤ e then if m * 2 ^ e.toNat < 2 ^ 128 then .finite neg m e h else .inf neg
    else
      let unit := 2 ^ (low - e).toNat
      let q := m / unit
      let r := m % unit
      let q := if unit < 2 * r ∨ (2 * r = unit ∧ q % 2 = 1) then q + 1 else q
      if q * 2 ^ low.toNat < 2 ^ 128 then round neg (q * 2 ^ low.toNat) (2 ^ (-low).toNat) else .inf neg

/-- The conversion of `double` to a 32-bit integer: towards zero.  Outside the range it is
undefined in C++; here it gives the least integer, as the x86-64 instruction does. -/
def toInt32 : Binary64 → Int32
  | .finite neg m e _ =>
    let q : Int := m * 2 ^ e.toNat / 2 ^ (-e).toNat
    let i := if neg then -q else q
    if Int32.minValue.toInt ≤ i ∧ i ≤ Int32.maxValue.toInt then Int32.ofInt i else Int32.minValue
  | _ => Int32.minValue

/-- `std::to_string` of a `double`: the format `%f`, exactly rounded to six decimals. -/
def text : Binary64 → Bytes
  | .nan => bytes "nan"
  | .inf neg => if neg then bytes "-inf" else bytes "inf"
  | .finite neg m e _ =>
    let num := m * 10 ^ 6 * 2 ^ e.toNat
    let den := 2 ^ (-e).toNat
    let q := num / den
    let r := num % den
    let micros := if den < 2 * r ∨ (2 * r = den ∧ q % 2 = 1) then q + 1 else q
    let frac := natText (micros % 10 ^ 6)
    (if neg then [chr '-'] else []) ++ natText (micros / 10 ^ 6) ++ chr '.' ::
      (List.replicate (6 - frac.length) (chr '0') ++ frac)

/-! ## `std::stod` -/

/-- Digits, a point, digits: the digits' value, how many follow the point, the length read. -/
def significand (base : Nat) (s : Bytes) : Option (Nat × Nat × Nat) :=
  let int := s.takeWhile (isDigitOf base)
  let rest := s.dropWhile (isDigitOf base)
  let point := rest.head? = some (chr '.')
  let frac := if point then (rest.drop 1).takeWhile (isDigitOf base) else []
  if int = [] ∧ frac = [] then none
  else some (valueOf base (int ++ frac), frac.length, int.length + (if point then 1 + frac.length else 0))

/-- An exponent after one of the marks; `(0, 0)` when there is none with a digit. -/
def exponent (marks : Bytes) (s : Bytes) : Int × Nat :=
  match s with
  | [] => (0, 0)
  | c :: s =>
    if c ∈ marks then
      let sign := s.head? = some (chr '-') ∨ s.head? = some (chr '+')
      let ds := (if sign then s.drop 1 else s).takeWhile isdigit
      let len := (if sign then 2 else 1) + ds.length
      if ds = [] then (0, 0)
      else if s.head? = some (chr '-') then (-(valueOf 10 ds : Int), len) else (valueOf 10 ds, len)
    else (0, 0)

def startsWithNoCase (s word : Bytes) : Bool := (s.take word.length).map tolower == word

/-- `inf`, `infinity`, `nan` or `nan(…)`, in any case. -/
def special (neg : Bool) (s : Bytes) : Option (Binary64 × Nat) :=
  if startsWithNoCase s (bytes "infinity") then some (.inf neg, 8)
  else if startsWithNoCase s (bytes "inf") then some (.inf neg, 3)
  else if startsWithNoCase s (bytes "nan") then
    let tag := ((s.drop 4).takeWhile fun c => isalnum c || c == chr '_').length
    if (s.drop 3).head? = some (chr '(') ∧ (s.drop (4 + tag)).head? = some (chr ')') then
      some (.nan, 5 + tag)
    else some (.nan, 3)
  else none

/-- The value, whether it is out of range, and the length of the number read. -/
def number (neg : Bool) (s : Bytes) : Option (Binary64 × Bool × Nat) :=
  let scaled (num den len : Nat) := some (round neg num den, decide (RangeError neg num den), len)
  let hex := startsWithNoCase s (bytes "0x")
  match (if hex then significand 16 (s.drop 2) else none), significand 10 s with
  | some (v, fracLen, len), _ =>
    let (x, xlen) := exponent (bytes "pP") (s.drop (2 + len))
    let e := x - 4 * fracLen
    scaled (v * 2 ^ e.toNat) (2 ^ (-e).toNat) (2 + len + xlen)
  | none, some (v, fracLen, len) =>
    let (x, xlen) := exponent (bytes "eE") (s.drop len)
    let e := x - fracLen
    scaled (v * 10 ^ e.toNat) (10 ^ (-e).toNat) (len + xlen)
  | none, none => (special neg s).map fun (v, len) => (v, false, len)

/-- `std::stod`: the value of the longest numeric prefix and its length. -/
def stod (s : Bytes) : Except StdException (Binary64 × Nat) :=
  let space := (s.takeWhile isspace).length
  let body := s.dropWhile isspace
  let sign := body.head? = some (chr '-') ∨ body.head? = some (chr '+')
  let body' := if sign then body.drop 1 else body
  match number (decide (body.head? = some (chr '-'))) body' with
  | none => .error .invalidArgument
  | some (_, true, _) => .error .outOfRange
  | some (v, false, len) => .ok (v, space + (if sign then 1 else 0) + len)

/-! ## Integers -/

theorem ratLog2_one {n : Nat} (hn : n ≠ 0) : ratLog2 n 1 = Nat.log2 n := by
  have hone : Nat.log2 1 = 0 := by decide
  have hle : 2 ^ Nat.log2 n ≤ n := Nat.log2_self_le hn
  have hk : ((Nat.log2 n : Int) - (0 : Nat)).toNat = Nat.log2 n := by omega
  have hk' : (-((Nat.log2 n : Int) - (0 : Nat))).toNat = 0 := by omega
  simp only [ratLog2, hone, hk, hk', Nat.one_mul, Nat.pow_zero, Nat.mul_one, hle, if_true]
  omega

/-- The significand of a natural number below `2 ^ 53`, shifted to 53 bits. -/
theorem significand_bounds {n : Nat} (hn : n ≠ 0) (hlt : n < 2 ^ 53) :
    2 ^ 52 ≤ n * 2 ^ (52 - Nat.log2 n) ∧ n * 2 ^ (52 - Nat.log2 n) < 2 ^ 53 := by
  have hlog : Nat.log2 n < 53 := (Nat.log2_lt hn).2 hlt
  have hle : 2 ^ Nat.log2 n ≤ n := Nat.log2_self_le hn
  have hup : n < 2 ^ (Nat.log2 n + 1) := Nat.lt_log2_self
  constructor
  · calc 2 ^ 52 = 2 ^ Nat.log2 n * 2 ^ (52 - Nat.log2 n) := by rw [← Nat.pow_add]; congr 1; omega
      _ ≤ n * 2 ^ (52 - Nat.log2 n) := Nat.mul_le_mul_right _ hle
  · calc n * 2 ^ (52 - Nat.log2 n) < 2 ^ (Nat.log2 n + 1) * 2 ^ (52 - Nat.log2 n) :=
          Nat.mul_lt_mul_of_pos_right hup (Nat.two_pow_pos _)
      _ = 2 ^ 53 := by rw [← Nat.pow_add]; congr 1; omega

theorem roundParts_nat {n : Nat} (hn : n ≠ 0) (hlt : n < 2 ^ 53) :
    roundParts n 1 = (n * 2 ^ (52 - Nat.log2 n), (Nat.log2 n : Int) - 52, true) := by
  have hlog : Nat.log2 n < 53 := (Nat.log2_lt hn).2 hlt
  have he : max ((Nat.log2 n : Int) - 52) (-1074) = (Nat.log2 n : Int) - 52 := by omega
  have hup : (-((Nat.log2 n : Int) - 52)).toNat = 52 - Nat.log2 n := by omega
  have hdown : ((Nat.log2 n : Int) - 52).toNat = 0 := by omega
  have hmant := Nat.ne_of_lt (significand_bounds hn hlt).2
  simp only [roundParts, roundAt, nearest, ratLog2_one hn, he, hup, hdown, Nat.pow_zero, Nat.one_mul, Nat.div_one,
    Nat.mod_one, Nat.mul_zero, Nat.not_lt_zero, false_or, Nat.zero_ne_one, false_and, if_false, hmant,
    decide_true]

/-- **An integer of up to 53 bits is exact as a `double`.** -/
theorem ofInt_eq {i : Int} (hi : i ≠ 0) (hlt : i.natAbs < 2 ^ 53) :
    ∃ h, ofInt i = .finite (decide (i < 0)) (i.natAbs * 2 ^ (52 - Nat.log2 i.natAbs))
      ((Nat.log2 i.natAbs : Int) - 52) h := by
  have hn : i.natAbs ≠ 0 := by omega
  have hlog : Nat.log2 i.natAbs < 53 := (Nat.log2_lt hn).2 hlt
  obtain ⟨hlo, hup⟩ := significand_bounds hn hlt
  have hcanon : Canonical (i.natAbs * 2 ^ (52 - Nat.log2 i.natAbs)) ((Nat.log2 i.natAbs : Int) - 52) :=
    ⟨hup, by omega, by omega, .inl hlo⟩
  refine ⟨hcanon, ?_⟩
  unfold ofInt round
  simp only [hn, if_false, roundParts_nat hn hlt, hcanon, dif_pos]

theorem truncate_ofInt {i : Int} (hlt : i.natAbs < 2 ^ 53) : (ofInt i).truncate = some i := by
  by_cases hi : i = 0
  · subst hi
    decide +kernel
  · have hlog : Nat.log2 i.natAbs < 53 := (Nat.log2_lt (by omega)).2 hlt
    obtain ⟨hcanon, heq⟩ := ofInt_eq hi hlt
    have he : ((Nat.log2 i.natAbs : Int) - 52).toNat = 0 := by omega
    have he' : (-((Nat.log2 i.natAbs : Int) - 52)).toNat = 52 - Nat.log2 i.natAbs := by omega
    have hq : ((i.natAbs * 2 ^ (52 - Nat.log2 i.natAbs) : Nat) : Int) * 2 ^ 0 /
        2 ^ (52 - Nat.log2 i.natAbs) = i.natAbs := by
      rw [Int.natCast_mul, Int.pow_zero, Int.mul_one, Int.natCast_pow]
      exact Int.mul_ediv_cancel _ (Int.pow_ne_zero (by omega))
    have hsign : (if decide (i < 0) = true then -(i.natAbs : Int) else i.natAbs) = i := by
      split
      · next hneg =>
        have := of_decide_eq_true hneg
        omega
      · next hpos =>
        have := of_decide_eq_false (Bool.eq_false_iff.mpr hpos)
        omega
    simp only [heq, truncate, he, he', hq, hsign]

theorem toInt32_eq (d : Binary64) :
    d.toInt32 = Int32.ofInt (d.toInteger Int32.minValue.toInt Int32.maxValue.toInt) := by
  cases d with
  | nan => rfl
  | inf neg => rfl
  | finite neg m e h =>
    simp only [toInt32, toInteger, truncate]
    rw [apply_ite Int32.ofInt (_ ∧ _), Int32.ofInt_toInt]

theorem toInt32_ofInt {i : Int} (h₁ : Int32.minValue.toInt ≤ i) (h₂ : i ≤ Int32.maxValue.toInt) :
    (ofInt i).toInt32 = Int32.ofInt i := by
  have hmin : Int32.minValue.toInt = -2147483648 := rfl
  have hmax : Int32.maxValue.toInt = 2147483647 := rfl
  have ht := truncate_ofInt (i := i) (by omega)
  simp only [toInt32_eq, toInteger, ht, h₁, h₂, and_self, if_true]

theorem toInt32_ofInt_toInt (i : Int32) : (ofInt i.toInt).toInt32 = i := by
  rw [toInt32_ofInt (Int32.minValue_le_toInt i) (Int32.toInt_le i), Int32.ofInt_toInt]

theorem truncate_finite {neg : Bool} {m : Nat} {e : Int} {h : Canonical m e}
    (hint : (finite neg m e h).IsIntegral) :
    ∃ n : Nat, m * 2 ^ e.toNat = n * 2 ^ (-e).toNat ∧
      (finite neg m e h).truncate = some (if neg then -(n : Int) else n) := by
  obtain ⟨n, hn⟩ := hint
  have hpow : (2 : Int) ^ (-e).toNat ≠ 0 := Int.pow_ne_zero (by omega)
  refine ⟨n, by rw [hn, Nat.mul_comm], ?_⟩
  have hcast : (m : Int) * 2 ^ e.toNat = 2 ^ (-e).toNat * n := by exact_mod_cast hn
  simp only [truncate, hcast, Int.mul_ediv_cancel_left _ hpow]

theorem finite_congr {neg neg' : Bool} {m m' : Nat} {e e' : Int} {h : Canonical m e} {h' : Canonical m' e'}
    (hneg : neg = neg') (hm : m = m') (he : e = e') : finite neg m e h = finite neg' m' e' h' := by
  subst hneg hm he
  rfl

/-- A number with a small integer value is that integer, shifted to 53 bits. -/
theorem parts_of_value {m n : Nat} {e : Int} (h : Canonical m e) (hn : n ≠ 0) (hlt : n < 2 ^ 53)
    (hvalue : m * 2 ^ e.toNat = n * 2 ^ (-e).toNat) :
    ∃ k : Nat, e = -k ∧ k < 53 ∧ m = n * 2 ^ k ∧ 2 ^ 52 ≤ m := by
  obtain ⟨hup, hlow, -, hnormal⟩ := h
  have hbig : ∀ k, 53 ≤ k → 2 ^ 53 ≤ n * 2 ^ k := fun k hk =>
    Nat.le_trans (Nat.pow_le_pow_right (by omega) hk) (Nat.le_mul_of_pos_left _ (by omega))
  have hlo : 2 ^ 52 ≤ m := by
    rcases hnormal with hnormal | hmin
    · exact hnormal
    · have hzero : e.toNat = 0 := by omega
      have := hbig (-e).toNat (by omega)
      rw [hzero, Nat.pow_zero, Nat.mul_one] at hvalue
      omega
  have he : e ≤ 0 := by
    by_contra hpos
    obtain ⟨k, hk⟩ : ∃ k, e.toNat = k + 1 := ⟨e.toNat - 1, by omega⟩
    have hneg : (-e).toNat = 0 := by omega
    have hdouble : 2 ^ 52 * 2 ≤ m * 2 ^ (k + 1) :=
      Nat.mul_le_mul hlo (Nat.le_self_pow (by omega) 2)
    rw [hk, hneg] at hvalue
    omega
  obtain ⟨k, rfl⟩ : ∃ k : Nat, e = -k := ⟨(-e).toNat, by omega⟩
  have hm : m = n * 2 ^ k := by simpa using hvalue
  refine ⟨k, rfl, ?_, hm, hlo⟩
  by_contra hk
  have := hbig k (by omega)
  omega

theorem log2_of_shifted {n k : Nat} (hn : n ≠ 0) (hk : k < 53) (hlo : 2 ^ 52 ≤ n * 2 ^ k)
    (hup : n * 2 ^ k < 2 ^ 53) : Nat.log2 n = 52 - k := by
  have h52 : 2 ^ (52 - k) * 2 ^ k = 2 ^ 52 := by rw [← Nat.pow_add]; congr 1; omega
  have h53 : 2 ^ (52 - k + 1) * 2 ^ k = 2 ^ 53 := by rw [← Nat.pow_add]; congr 1; omega
  rw [Nat.log2_eq_iff hn]
  constructor
  · exact Nat.le_of_mul_le_mul_right (h52 ▸ hlo) (Nat.two_pow_pos k)
  · exact Nat.lt_of_mul_lt_mul_right (h53 ▸ hup)

theorem ofInt_of_value {neg : Bool} {m n : Nat} {e : Int} {h : Canonical m e} (hn : n ≠ 0) (hlt : n < 2 ^ 53)
    (hvalue : m * 2 ^ e.toNat = n * 2 ^ (-e).toNat) :
    ofInt (if neg then -(n : Int) else n) = .finite neg m e h := by
  obtain ⟨k, rfl, hk, rfl, hlo⟩ := parts_of_value h hn hlt hvalue
  have hlog := log2_of_shifted hn hk hlo h.1
  have habs : (if neg then -(n : Int) else n).natAbs = n := by cases neg <;> simp
  have hsign : decide ((if neg then -(n : Int) else n) < 0) = neg := by
    cases neg <;> simp
    omega
  obtain ⟨hcanon, heq⟩ := ofInt_eq (i := if neg then -(n : Int) else n) (by omega) (by omega)
  rw [heq]
  refine finite_congr hsign ?_ ?_
  · rw [habs, hlog, (by omega : 52 - (52 - k) = k)]
  · rw [habs, hlog]
    omega

theorem isIntegral_ofInt {i : Int} (hlt : i.natAbs < 2 ^ 53) : (ofInt i).IsIntegral := by
  by_cases hi : i = 0
  · subst hi
    decide +kernel
  · have hlog : (-((Nat.log2 i.natAbs : Int) - 52)).toNat = 52 - Nat.log2 i.natAbs := by
      have := (Nat.log2_lt (by omega)).2 hlt
      omega
    obtain ⟨hcanon, hof⟩ := ofInt_eq hi hlt
    rw [hof, IsIntegral, hlog]
    exact Nat.dvd_mul_right_of_dvd (Nat.dvd_mul_left _ _) _

/-- Up to `2 ^ 53` a `double` has every integer. -/
theorem exact_ofInt {i : Int} (h : i.natAbs ≤ 2 ^ 53) : (ofInt i).IsIntegral ∧ (ofInt i).truncate = some i := by
  rcases Nat.lt_or_eq_of_le h with hlt | heq
  · exact ⟨isIntegral_ofInt hlt, truncate_ofInt hlt⟩
  · obtain rfl | rfl : i = 2 ^ 53 ∨ i = -2 ^ 53 := by omega
    · decide +kernel
    · decide +kernel

/-- The numbers that equal an integer are the integer itself, and for zero both zeros. -/
theorem eq_ofInt_cases {d : Binary64} {i : Int} (hlt : i.natAbs < 2 ^ 53) (h : d.eq (ofInt i) = true) :
    d = ofInt i ∨ i = 0 ∧ ∃ neg e h, d = .finite neg 0 e h := by
  by_cases hi : i = 0
  · subst hi
    cases d with
    | finite neg m e hc =>
      have hm : m = 0 := by
        have hzero : ofInt 0 = zero false := rfl
        simp only [hzero, eq, zero, Bool.or_eq_true, Bool.and_eq_true, beq_iff_eq] at h
        exact h.elim And.left fun h => h.1.2
      subst hm
      exact .inr ⟨rfl, neg, e, hc, rfl⟩
    | _ => cases h
  · have hpos : i.natAbs * 2 ^ (52 - Nat.log2 i.natAbs) ≠ 0 :=
      Nat.mul_ne_zero (by omega) (Nat.ne_of_gt (Nat.two_pow_pos _))
    obtain ⟨hcanon, hof⟩ := ofInt_eq hi hlt
    rw [hof] at h ⊢
    cases d with
    | finite neg m e hc =>
      simp only [eq, Bool.or_eq_true, Bool.and_eq_true, beq_iff_eq, hpos, and_false, false_or] at h
      obtain ⟨⟨hneg, hm⟩, he⟩ := h
      exact .inl (finite_congr hneg hm he)
    | _ => cases h

/-- **Comparison with a small integer is exact.** -/
theorem eq_ofInt_iff {d : Binary64} {i : Int} (hlt : i.natAbs < 2 ^ 53) :
    d.eq (ofInt i) = true ↔ d.IsIntegral ∧ d.truncate = some i := by
  constructor
  · intro heq
    rcases eq_ofInt_cases hlt heq with rfl | ⟨rfl, neg, e, hc, rfl⟩
    · exact ⟨isIntegral_ofInt hlt, truncate_ofInt hlt⟩
    · exact ⟨by simp [IsIntegral], by simp [truncate]⟩
  · rintro ⟨hint, htrunc⟩
    cases d with
    | finite neg m e h =>
      obtain ⟨n, hvalue, hn⟩ := truncate_finite hint
      rw [hn] at htrunc
      obtain rfl := Option.some.inj htrunc
      by_cases hz : n = 0
      · subst hz
        have hm : m = 0 := by
          rw [Nat.zero_mul] at hvalue
          exact (Nat.mul_eq_zero.mp hvalue).resolve_right (Nat.ne_of_gt (Nat.two_pow_pos _))
        subst hm
        cases neg <;> rfl
      · rw [ofInt_of_value (h := h) hz (by cases neg <;> simpa using hlt) hvalue]
        simp [eq]
    | _ => exact absurd hint id

theorem toInt_toInt32 {d : Binary64} (h : d.InInt32) : d.truncate = some d.toInt32.toInt := by
  obtain ⟨q, hq, hlo, hup⟩ := h
  have hint : d.toInt32 = Int32.ofInt q := by
    simp only [toInt32_eq, toInteger, hq, hlo, hup, and_self, if_true]
  have hmin : Int32.minValue.toInt = -2147483648 := rfl
  have hmax : Int32.maxValue.toInt = 2147483647 := rfl
  rw [hq, hint, Int32.toInt_ofInt_of_le (by omega) (by omega)]

/-- **The conversion to a 32-bit integer is exact on the 32-bit integers, and nowhere else.** -/
theorem eq_ofInt_toInt32_iff (d : Binary64) :
    d.eq (ofInt d.toInt32.toInt) = true ↔ d.IsIntegral ∧ d.InInt32 := by
  have hlo := Int32.minValue_le_toInt d.toInt32
  have hup := Int32.toInt_le d.toInt32
  have hmin : Int32.minValue.toInt = -2147483648 := rfl
  have hmax : Int32.maxValue.toInt = 2147483647 := rfl
  rw [eq_ofInt_iff (by omega)]
  exact and_congr_right fun _ => ⟨fun h => ⟨_, h, hlo, hup⟩, toInt_toInt32⟩

theorem eq_comm (d d' : Binary64) : d.eq d' = d'.eq d := by
  cases d <;> cases d' <;> simp [eq, Bool.and_comm, Bool.beq_comm]

/-- Two numbers that equal an integer are equal. -/
theorem eq_of_eq_ofInt {d d' : Binary64} {i : Int} (h : d.eq (ofInt i) = true) (h' : d'.eq (ofInt i) = true) :
    d.eq d' = true := by
  generalize ofInt i = w at h h'
  cases d <;> cases d' <;> cases w <;> grind [eq]

theorem round_exact {m : Nat} {k : Nat} (h : Canonical m k) (hm : 2 ^ 52 ≤ m) :
    round false (m * 2 ^ k) 1 = .finite false m k h := by
  have hpow : 2 ^ k ≠ 0 := Nat.ne_of_gt (Nat.two_pow_pos k)
  have hpos : m * 2 ^ k ≠ 0 := Nat.mul_ne_zero (by omega) hpow
  have hlog : Nat.log2 (m * 2 ^ k) = 52 + k := by
    rw [Nat.log2_eq_iff hpos, Nat.pow_add, Nat.add_right_comm, Nat.pow_add]
    exact ⟨Nat.mul_le_mul_right _ hm, Nat.mul_lt_mul_of_pos_right h.1 (Nat.two_pow_pos k)⟩
  have hparts : roundParts (m * 2 ^ k) 1 = (m, (k : Int), true) := by
    have he : max (((52 + k : Nat) : Int) - 52) (-1074) = k := by omega
    have hne : m ≠ 2 ^ 53 := Nat.ne_of_lt h.1
    have hneg : (-(k : Int)).toNat = 0 := by omega
    simp only [roundParts, roundAt, nearest, ratLog2_one hpos, hlog, he, hneg, Int.toNat_natCast, Nat.pow_zero,
      Nat.mul_one, Nat.one_mul, Nat.mul_div_cancel _ (Nat.two_pow_pos k), Nat.mul_mod_left, Nat.mul_zero, Nat.not_lt_zero,
      hpow.symm, false_and, or_self, if_false, hne, decide_true]
  unfold round
  rw [if_neg hpos]
  simp only [hparts, h, dif_pos]

/-- A number from `2 ^ 53` on is rounded to one with a positive exponent. -/
theorem ofInt_large {n : Nat} (hlo : 2 ^ 53 ≤ n) (hup : n < 2 ^ 64) :
    ∃ m k h, ofInt n = .finite false m (k + 1 : Nat) h ∧ 2 ^ 52 ≤ m := by
  have hn : n ≠ 0 := by omega
  obtain ⟨k, hk⟩ : ∃ k, Nat.log2 n = 53 + k := ⟨Nat.log2 n - 53, by
    have := (Nat.le_log2 hn).2 hlo
    omega⟩
  have hk64 : k < 11 := by
    have := (Nat.log2_lt hn).2 hup
    omega
  obtain ⟨hle, hlt⟩ := (Nat.log2_eq_iff hn).1 hk
  have hdivlo : 2 ^ 52 ≤ n / 2 ^ (k + 1) := by
    rw [Nat.le_div_iff_mul_le (Nat.two_pow_pos _), ← Nat.pow_add]
    exact (by omega : 52 + (k + 1) = 53 + k) ▸ hle
  have hdivup : n / 2 ^ (k + 1) < 2 ^ 53 := by
    rw [Nat.div_lt_iff_lt_mul (Nat.two_pow_pos _), ← Nat.pow_add]
    exact (by omega : 53 + k + 1 = 53 + (k + 1)) ▸ hlt
  have he : max (((53 + k : Nat) : Int) - 52) (-1074) = (k + 1 : Nat) := by omega
  have hneg : (-((k + 1 : Nat) : Int)).toNat = 0 := by omega
  have hparts : ∃ m' k', (roundParts n 1).1 = m' ∧ (roundParts n 1).2.1 = (k' + 1 : Nat) ∧ k' ≤ 11 ∧
      2 ^ 52 ≤ m' ∧ m' < 2 ^ 53 := by
    simp only [roundParts, roundAt, nearest, ratLog2_one hn, hk, he, hneg, Int.toNat_natCast, Nat.pow_zero,
      Nat.mul_one, Nat.one_mul]
    generalize n / 2 ^ (k + 1) = q at *
    split_ifs
    · exact ⟨2 ^ 52, k + 1, rfl, by push_cast; rfl, by omega, by omega, by omega⟩
    · exact ⟨q + 1, k, rfl, rfl, by omega, by omega, by omega⟩
    · omega
    · exact ⟨q, k, rfl, rfl, by omega, by omega, by omega⟩
  obtain ⟨m, k', hm, hk', hk11, hlo', hup'⟩ := hparts
  have hcanon : Canonical m (k' + 1 : Nat) := ⟨hup', by omega, by omega, .inl hlo'⟩
  refine ⟨m, k', hcanon, ?_, hlo'⟩
  have hnn : ¬ ((n : Int) < 0) := by omega
  unfold ofInt round
  simp only [Int.natAbs_natCast, hn, if_false, hm, hk', hcanon, dif_pos, hnn, decide_false]

/-- The integer a large integer is rounded to is rounded to itself. -/
theorem ofInt_truncate {i : Int} (hlo : 2 ^ 53 ≤ i) (hup : i < 2 ^ 64) :
    ∃ t, (ofInt i).truncate = some t ∧ ofInt t = ofInt i ∧ 2 ^ 53 ≤ t := by
  obtain ⟨n, rfl⟩ := Int.eq_ofNat_of_zero_le (by omega : 0 ≤ i)
  obtain ⟨m, k, h, heq, hm⟩ := ofInt_large (n := n) (by omega) (by omega)
  refine ⟨(m * 2 ^ (k + 1) : Nat), ?_, ?_, ?_⟩
  · have hneg : (-((k + 1 : Nat) : Int)).toNat = 0 := by omega
    simp only [heq, truncate, hneg, Int.toNat_natCast, Int.pow_zero, Int.ediv_one, Bool.false_eq_true,
      if_false, Int.natCast_mul, Int.natCast_pow, Int.cast_ofNat_Int]
  · have hnn : ¬ (((m * 2 ^ (k + 1) : Nat) : Int) < 0) := by omega
    rw [heq, ofInt, Int.natAbs_natCast, decide_eq_false hnn, round_exact h hm]
  · have := Nat.mul_le_mul hm (Nat.pow_le_pow_right (by omega : 0 < 2) (by omega : 1 ≤ k + 1))
    omega

/-! ## Range errors -/

/-- A finite number with 53 significant bits. -/
def IsNormal : Binary64 → Prop
  | .finite _ mant _ _ => 2 ^ 52 ≤ mant
  | _ => False

instance : DecidablePred IsNormal
  | .finite _ mant _ _ => inferInstanceAs (Decidable (2 ^ 52 ≤ mant))
  | .nan => .isFalse id
  | .inf _ => .isFalse id

/-- An even number is reached from half a unit below it. -/
theorem le_nearest_iff {n d c : Nat} (hd : 0 < d) (hpos : 0 < c) (heven : c % 2 = 0) :
    c ≤ nearest n d ↔ (2 * c - 1) * d ≤ 2 * n := by
  have hdiv := Nat.div_add_mod n d
  have hmod := Nat.mod_lt n hd
  simp only [nearest]
  generalize n / d = q at *
  generalize n % d = r at *
  rcases Nat.lt_trichotomy c (q + 1) with hlt | rfl | hgt
  · have hmul : (2 * c - 1) * d ≤ 2 * q * d := Nat.mul_le_mul_right d (by omega)
    have hq : 2 * q * d = 2 * (d * q) := by rw [Nat.mul_assoc, Nat.mul_comm q]
    constructor
    · intro _
      omega
    · intro _
      split <;> omega
  · have hq : (2 * (q + 1) - 1) * d = 2 * (d * q) + d := by
      rw [(by omega : 2 * (q + 1) - 1 = 2 * q + 1), Nat.succ_mul, Nat.mul_assoc, Nat.mul_comm q]
    rw [hq]
    constructor
    · intro h
      split at h <;> omega
    · intro h
      rw [if_pos (by omega)]
  · have hmul : (2 * q + 3) * d ≤ (2 * c - 1) * d := Nat.mul_le_mul_right d (by omega)
    have hq : (2 * q + 3) * d = 2 * (d * q) + 3 * d := by rw [Nat.add_mul, Nat.mul_assoc, Nat.mul_comm q]
    constructor
    · intro h
      split at h <;> omega
    · intro h
      omega

theorem nearest_le {n d c : Nat} (hd : 0 < d) (h : n < c * d) : nearest n d ≤ c := by
  have hlt : n / d < c := (Nat.div_lt_iff_lt_mul hd).2 h
  simp only [nearest]
  split <;> omega

theorem mul_two_pow_add (num i j : Nat) : num * 2 ^ (i + j) = num * 2 ^ i * 2 ^ j := by
  rw [Nat.pow_add, Nat.mul_assoc]

/-- A shift by the difference of the lengths brings two numbers within a factor of two. -/
theorem shifted_bounds {num den j : Nat} (hnum : num ≠ 0) (hden : den ≠ 0)
    (h : Nat.log2 den = Nat.log2 num + j) : den < num * 2 ^ (j + 1) ∧ num * 2 ^ j < 2 * den := by
  have hnum₁ := Nat.mul_le_mul_right (2 ^ (j + 1)) (Nat.log2_self_le hnum)
  have hnum₂ := Nat.mul_lt_mul_of_pos_right (Nat.lt_log2_self (n := num)) (Nat.two_pow_pos j)
  have hden₁ := Nat.log2_self_le hden
  have hden₂ := Nat.lt_log2_self (n := den)
  rw [← Nat.pow_add, ← Nat.add_assoc] at hnum₁
  rw [← Nat.pow_add, Nat.add_right_comm, Nat.pow_succ] at hnum₂
  rw [h] at hden₁ hden₂
  omega

/-- `ratLog2` is the logarithm, compared here with the negative integers. -/
theorem neg_le_ratLog2 {num den : Nat} (hnum : num ≠ 0) (hden : den ≠ 0) (k : Nat) :
    -(k : Int) ≤ ratLog2 num den ↔ den ≤ num * 2 ^ k := by
  simp only [ratLog2]
  rcases Nat.lt_or_ge (Nat.log2 den) (Nat.log2 num) with hlog | hlog
  · have hlt : den < num := by
      have hle := Nat.pow_le_pow_right (by omega : 0 < 2) (by omega : Nat.log2 den + 1 ≤ Nat.log2 num)
      have := Nat.lt_log2_self (n := den)
      have := Nat.log2_self_le hnum
      omega
    constructor
    · intro _
      exact Nat.le_trans (Nat.le_of_lt hlt) (Nat.le_mul_of_pos_right _ (Nat.two_pow_pos k))
    · intro _
      split <;> omega
  · obtain ⟨j, hj⟩ : ∃ j, Nat.log2 den = Nat.log2 num + j := ⟨Nat.log2 den - Nat.log2 num, by omega⟩
    obtain ⟨hlow, hup⟩ := shifted_bounds hnum hden hj
    have hmono : ∀ {i j : Nat}, i ≤ j → num * 2 ^ i ≤ num * 2 ^ j := fun h =>
      Nat.mul_le_mul_left _ (Nat.pow_le_pow_right (by omega) h)
    have h₁ : ((Nat.log2 num : Int) - (Nat.log2 den : Int)).toNat = 0 := by omega
    have h₂ : (-((Nat.log2 num : Int) - (Nat.log2 den : Int))).toNat = j := by omega
    simp only [h₁, h₂, Nat.pow_zero, Nat.mul_one]
    -- The estimate `-j` is right when the shifted numerator reaches the denominator, else it is one too high.
    split
    · next hle =>
      constructor
      · intro h
        exact Nat.le_trans hle (hmono (by omega))
      · intro h
        by_contra hlt
        have hk : num * 2 ^ (k + 1) ≤ num * 2 ^ j := hmono (by omega)
        rw [Nat.pow_succ, ← Nat.mul_assoc] at hk
        omega
    · next hgt =>
      constructor
      · intro h
        have := hmono (by omega : j + 1 ≤ k)
        omega
      · intro h
        by_contra hlt
        have := hmono (by omega : k ≤ j)
        omega

theorem roundAt_exponent (e : Int) (num den : Nat) :
    (roundAt e num den).2.1 =
      if nearest (num * 2 ^ (-e).toNat) (den * 2 ^ e.toNat) = 2 ^ 53 then e + 1 else e := by
  simp only [roundAt]
  split <;> rfl

/-- Tiny is what lies below the least normal number by more than a quarter of a unit. -/
theorem tiny_iff {num den : Nat} (hnum : num ≠ 0) (hden : den ≠ 0) :
    Tiny num den ↔ num * 2 ^ 1076 < (2 ^ 54 - 1) * den := by
  have hnormal := neg_le_ratLog2 hnum hden 1022
  have hhalf := neg_le_ratLog2 hnum hden 1023
  have h1023 := mul_two_pow_add num 1022 1
  have h1075 := mul_two_pow_add num 1022 53
  have h1076 := mul_two_pow_add num 1022 54
  simp only [Nat.reduceAdd] at h1023 h1075 h1076
  rw [Tiny, roundAt_exponent, h1076]
  rw [h1023] at hhalf
  rcases Int.lt_trichotomy (ratLog2 num den) (-1023) with hlt | hmid | hgt
  · have hbelow : ¬ den ≤ num * 2 ^ 1022 * 2 ^ 1 := fun h => by
      have := hhalf.2 h
      omega
    constructor
    · intro _
      omega
    · intro _
      split <;> omega
  · have hbelow : ¬ den ≤ num * 2 ^ 1022 := fun h => by
      have := hnormal.2 h
      omega
    have he : (-((-1023 : Int) - 52)).toNat = 1075 := by decide
    have he' : ((-1023 : Int) - 52).toNat = 0 := by decide
    rw [hmid, he, he', Nat.pow_zero, Nat.mul_one, h1075]
    have hle : nearest (num * 2 ^ 1022 * 2 ^ 53) den ≤ 2 ^ 53 := nearest_le (by omega) (by omega)
    have hge := le_nearest_iff (n := num * 2 ^ 1022 * 2 ^ 53) (d := den) (c := 2 ^ 53) (by omega) (by omega)
      (by omega)
    constructor
    · intro h
      split at h <;> omega
    · intro h
      split <;> omega
  · have habove : den ≤ num * 2 ^ 1022 := hnormal.1 (by omega)
    constructor
    · intro h
      split at h <;> omega
    · intro _
      omega

/-- A value below the normal numbers is a multiple of the least unit. -/
theorem roundParts_below {num den : Nat} (hnum : num ≠ 0) (hden : den ≠ 0) (h : num * 2 ^ 1022 < den) :
    roundParts num den = (nearest (num * 2 ^ 1074) den, -1074, decide (num * 2 ^ 1074 % den = 0)) := by
  have hlog : ¬ -1022 ≤ ratLog2 num den := fun hle => by
    have := (neg_le_ratLog2 hnum hden 1022).1 hle
    omega
  have hmax : max (ratLog2 num den - 52) (-1074) = -1074 := by omega
  have he : (-(-1074 : Int)).toNat = 1074 := by decide
  have he' : (-1074 : Int).toNat = 0 := by decide
  have hscale := mul_two_pow_add num 1022 52
  have hle : nearest (num * 2 ^ 1074) den ≤ 2 ^ 52 := nearest_le (by omega) (by omega)
  rw [roundParts, hmax]
  simp only [roundAt, he, he', Nat.pow_zero, Nat.mul_one]
  rw [if_neg (by omega)]

/-- Below the least normal number by more than a quarter of a unit and no more than half of one: the
nearest `double` is that number, and `strtod` reports `ERANGE` all the same. -/
def RoundsUpToNormal (num den : Nat) : Prop :=
  (2 ^ 53 - 1) * den ≤ num * 2 ^ 1075 ∧ num * 2 ^ 1076 < (2 ^ 54 - 1) * den

instance (num den : Nat) : Decidable (RoundsUpToNormal num den) := inferInstanceAs (Decidable (_ ∧ _))

theorem mant_of_isNormal {neg : Bool} {num den : Nat} (hnum : num ≠ 0) (h : (round neg num den).IsNormal) :
    round neg num den ≠ .inf neg ∧ 2 ^ 52 ≤ (roundParts num den).1 := by
  simp only [round, hnum, if_false] at h ⊢
  split at h
  · next hc =>
    rw [dif_pos hc]
    exact ⟨nofun, h⟩
  · exact absurd h id

/-- **The range errors among the values whose `double` is zero or normal.** -/
theorem rangeError_iff {neg : Bool} {num den : Nat} (hden : den ≠ 0)
    (h : num = 0 ∨ (round neg num den).IsNormal) : RangeError neg num den ↔ RoundsUpToNormal num den := by
  have h1074 := mul_two_pow_add num 1022 52
  have h1075 := mul_two_pow_add num 1022 53
  have h1076 := mul_two_pow_add num 1022 54
  simp only [Nat.reduceAdd] at h1074 h1075 h1076
  rw [RoundsUpToNormal, h1075, h1076]
  constructor
  · rintro ⟨hnum, hrange⟩
    obtain ⟨hinf, hmant⟩ := mant_of_isNormal hnum (h.resolve_left hnum)
    have htiny := (tiny_iff hnum hden).1 (hrange.resolve_left hinf).1
    rw [h1076] at htiny
    rw [roundParts_below hnum hden (by omega), h1074] at hmant
    dsimp only at hmant
    have hhalf := (le_nearest_iff (n := num * 2 ^ 1022 * 2 ^ 52) (d := den) (c := 2 ^ 52) (by omega) (by omega)
      (by omega)).1 hmant
    exact ⟨by omega, htiny⟩
  · rintro ⟨hlow, hup⟩
    have hnum : num ≠ 0 := fun hzero => by
      rw [hzero, Nat.zero_mul, Nat.zero_mul] at hlow
      omega
    have htiny : Tiny num den := (tiny_iff hnum hden).2 (by rwa [h1076])
    refine ⟨hnum, .inr ⟨htiny, ?_⟩⟩
    rw [roundParts_below hnum hden (by omega), decide_eq_false_iff_not, h1074]
    intro hexact
    obtain ⟨q, hq⟩ := Nat.dvd_of_mod_eq_zero hexact
    -- A whole number of units that is at least half a unit below `2 ^ 52` of them is not more than that.
    have hqlow : 2 ^ 52 ≤ q := by
      by_contra hlt
      have := Nat.mul_le_mul_left den (by omega : q ≤ 2 ^ 52 - 1)
      omega
    have := Nat.mul_le_mul_left den hqlow
    omega

/-- `2.2250738585072012e-308` -/
example : RangeError false 22250738585072012 (10 ^ 324) := by decide +kernel

/-! ## Decimal texts -/

def signText (minus : Bool) : Bytes := if minus then [chr '-'] else []

theorem digit_facts : ∀ c : UInt8, isdigit c = true → isspace c = false ∧ c ≠ chr '-' ∧ c ≠ chr '+' :=
  forall_byte (by decide +kernel)

theorem stod_signed (minus : Bool) {c : UInt8} {s : Bytes} (hc : isdigit c = true) :
    stod (signText minus ++ c :: s) =
      match number minus (c :: s) with
      | none => .error .invalidArgument
      | some (_, true, _) => .error .outOfRange
      | some (v, false, len) => .ok (v, (signText minus).length + len) := by
  obtain ⟨hsp, hm, hp⟩ := digit_facts c hc
  cases minus with
  | true =>
    have hspace : isspace (chr '-') = false := by decide
    simp only [signText, if_true, List.singleton_append, stod, List.takeWhile_cons, List.dropWhile_cons,
      hspace, List.head?_cons, decide_true, true_or, List.drop_succ_cons, List.drop_zero,
      List.length_nil, Nat.zero_add, List.length_singleton, Bool.false_eq_true, if_false]
  | false =>
    simp only [signText, Bool.false_eq_true, if_false, List.nil_append, stod, List.takeWhile_cons,
      List.dropWhile_cons, hsp, List.head?_cons, Option.some.injEq, hm, hp, or_self, decide_false,
      List.length_nil, Nat.zero_add]

theorem startsWithNoCase_hex {s : Bytes} (h : ∀ c ∈ s, tolower c ≠ chr 'x') :
    startsWithNoCase s (bytes "0x") = false := by
  rw [Bool.eq_false_iff]
  intro hs
  have heq : (s.take 2).map tolower = bytes "0x" := by simpa [startsWithNoCase, bytes] using hs
  have hx : chr 'x' ∈ (s.take 2).map tolower := by
    rw [heq]
    decide
  obtain ⟨c, hc, hcx⟩ := List.mem_map.mp hx
  exact h c (List.mem_of_mem_take hc) hcx

end Binary64
