import Mathlib.Algebra.Group.Nat.Defs
import Mathlib.Algebra.Group.Int.Defs
import Mathlib.Data.List.Basic
import Mathlib.Data.Int.Basic

/-!
# Byte strings and the C character functions

`std::string` as a list of bytes, the `<cctype>` classes in the "C" locale, and the
`<charconv>` and `std::to_string` conversions between numbers and digits.

* `natText`, `intText`: `std::to_string` of an integer.
* `fromChars base limit s`: `std::from_chars` for an unsigned type with greatest value
  `limit`; the second component counts the bytes up to the returned pointer.
* `fromCharsInt lo hi s`: the same in base ten for a signed type with range `lo .. hi`.

What is printed is read back: `fromChars_digits`, `fromCharsInt_intText`.
-/

abbrev Bytes := List UInt8

namespace Chars

@[match_pattern] abbrev chr (c : Char) : UInt8 := UInt8.ofNat c.toNat

def bytes (s : String) : Bytes := s.toList.map chr

/-! ## Character classes -/

def isspace (c : UInt8) : Bool := (9 ≤ c && c ≤ 13) || c == 32

def isdigit (c : UInt8) : Bool := 48 ≤ c && c ≤ 57

def isalpha (c : UInt8) : Bool := (65 ≤ c && c ≤ 90) || (97 ≤ c && c ≤ 122)

def isalnum (c : UInt8) : Bool := isalpha c || isdigit c

def tolower (c : UInt8) : UInt8 := if 65 ≤ c && c ≤ 90 then c + 32 else c

def toupper (c : UInt8) : UInt8 := if 97 ≤ c && c ≤ 122 then c - 32 else c

/-- The value of a digit in the bases up to 36; `36` for every other byte. -/
def digitVal (c : UInt8) : Nat :=
  if isdigit c then c.toNat - 48
  else if 97 ≤ c && c ≤ 122 then c.toNat - 87
  else if 65 ≤ c && c ≤ 90 then c.toNat - 55
  else 36

def isDigitOf (base : Nat) (c : UInt8) : Bool := digitVal c < base

/-! ## Conversions -/

def valueOf (base : Nat) (ds : Bytes) : Nat := ds.foldl (fun acc c => base * acc + digitVal c) 0

/-- `std::to_string` of an unsigned integer. -/
def natText (n : Nat) : Bytes := (Nat.toDigits 10 n).map chr

/-- `std::to_string` of a signed integer. -/
def intText (i : Int) : Bytes :=
  if i < 0 then chr '-' :: natText i.natAbs else natText i.natAbs

inductive Errc where
  | invalidArgument
  | resultOutOfRange
  deriving DecidableEq, Repr

/-- `std::from_chars` for an unsigned type: the value or the error, and how far it read. -/
def fromChars (base limit : Nat) (s : Bytes) : Except Errc Nat × Nat :=
  let ds := s.takeWhile (isDigitOf base)
  if ds = [] then (.error .invalidArgument, 0)
  else if limit < valueOf base ds then (.error .resultOutOfRange, ds.length)
  else (.ok (valueOf base ds), ds.length)

/-- `std::from_chars` in base ten for a signed type with the values `lo .. hi`. -/
def fromCharsInt (lo hi : Int) (s : Bytes) : Except Errc Int × Nat :=
  let neg := s.head? = some (chr '-')
  let ds := (if neg then s.drop 1 else s).takeWhile isdigit
  let len := if neg then ds.length + 1 else ds.length
  let val : Int := if neg then -(valueOf 10 ds : Int) else valueOf 10 ds
  if ds = [] then (.error .invalidArgument, 0)
  else if val < lo ∨ hi < val then (.error .resultOutOfRange, len)
  else (.ok val, len)

/-! ## Lemmas -/

/-- A property of bytes can be checked on the 256 of them. -/
theorem forall_byte {P : UInt8 → Prop} (h : ∀ n, n < 256 → P (UInt8.ofNat n)) (c : UInt8) : P c := by
  have := h c.toNat c.toNat_lt
  rwa [UInt8.ofNat_toNat] at this

theorem isalnum_of_isdigit {c : UInt8} (h : isdigit c = true) : isalnum c = true := by
  simp [isalnum, h]

theorem isDigitOf_ten (c : UInt8) : isDigitOf 10 c = isdigit c := by
  unfold isDigitOf digitVal
  by_cases h : isdigit c = true
  · simp only [h, if_true, decide_eq_true_eq]
    simp only [isdigit, Bool.and_eq_true, decide_eq_true_eq, UInt8.le_iff_toNat_le] at h
    have h₂ : c.toNat ≤ 57 := h.2
    omega
  · simp only [h, if_false, decide_eq_false_iff_not, Bool.false_eq_true]
    split
    · next h' =>
      simp only [Bool.and_eq_true, decide_eq_true_eq, UInt8.le_iff_toNat_le] at h'
      have h₁ : 97 ≤ c.toNat := h'.1
      simp; omega
    · split
      · next h' =>
        simp only [Bool.and_eq_true, decide_eq_true_eq, UInt8.le_iff_toNat_le] at h'
        have h₁ : 65 ≤ c.toNat := h'.1
        simp; omega
      · simp

/-- A run that ends before a byte outside the class is taken whole. -/
theorem takeWhile_append_stop {p : UInt8 → Bool} {s r : Bytes} (hs : ∀ c ∈ s, p c = true)
    (hr : ∀ c, r.head? = some c → p c = false) : (s ++ r).takeWhile p = s := by
  rw [List.takeWhile_append_of_pos hs]
  cases r with
  | nil => simp
  | cons c r => simp [hr c rfl]

theorem dropWhile_append_stop {p : UInt8 → Bool} {s r : Bytes} (hs : ∀ c ∈ s, p c = true)
    (hr : ∀ c, r.head? = some c → p c = false) : (s ++ r).dropWhile p = r := by
  rw [List.dropWhile_append_of_pos hs]
  cases r with
  | nil => simp
  | cons c r => simp [hr c rfl]

/-- What is left after a run does not begin with a byte of its class. -/
theorem head?_dropWhile {p : UInt8 → Bool} {s : Bytes} {c : UInt8}
    (h : (s.dropWhile p).head? = some c) : p c = false := by
  induction s with
  | nil => simp at h
  | cons d s ih =>
    rw [List.dropWhile_cons] at h
    split at h
    · exact ih h
    · next hd =>
      simp only [List.head?_cons, Option.some.injEq] at h
      subst h
      simpa using hd

theorem chr_toNat_of_isDigit {c : Char} (h : c.isDigit = true) :
    (chr c).toNat = c.toNat ∧ 48 ≤ c.toNat ∧ c.toNat ≤ 57 := by
  simp only [Char.isDigit, Bool.and_eq_true, decide_eq_true_eq, ge_iff_le, UInt32.le_iff_toNat_le] at h
  have h₁ : 48 ≤ c.toNat := h.1
  have h₂ : c.toNat ≤ 57 := h.2
  refine ⟨?_, h₁, h₂⟩
  simp only [chr, UInt8.toNat_ofNat']
  omega

theorem isdigit_chr {c : Char} (h : c.isDigit = true) : isdigit (chr c) = true := by
  obtain ⟨h₁, h₂, h₃⟩ := chr_toNat_of_isDigit h
  simp only [isdigit, Bool.and_eq_true, decide_eq_true_eq, UInt8.le_iff_toNat_le, h₁]
  exact ⟨h₂, h₃⟩

theorem isdigit_of_mem_natText {n : Nat} {c : UInt8} (h : c ∈ natText n) : isdigit c = true := by
  obtain ⟨d, hd, rfl⟩ := List.mem_map.mp h
  exact isdigit_chr (Nat.isDigit_of_mem_toDigits (by omega) (by omega) hd)

theorem natText_ne_nil (n : Nat) : natText n ≠ [] := by
  simp [natText, Nat.toDigits_ne_nil]

/-- **The digits of a number denote it.** -/
theorem valueOf_natText (n : Nat) : valueOf 10 (natText n) = n := by
  have key : ∀ (ds : List Char) (acc : Nat), (∀ d ∈ ds, d.isDigit = true) →
      (ds.map chr).foldl (fun acc c => 10 * acc + digitVal c) acc = Nat.ofDigitChars 10 ds acc := by
    intro ds
    induction ds with
    | nil => intro acc _; simp
    | cons d ds ih =>
      intro acc hds
      have hd := hds d List.mem_cons_self
      obtain ⟨h₁, h₂, h₃⟩ := chr_toNat_of_isDigit hd
      rw [List.map_cons, List.foldl_cons, ih _ fun d' h' => hds d' (List.mem_cons_of_mem _ h'),
        Nat.ofDigitChars_cons]
      simp only [digitVal, isdigit_chr hd, if_true, h₁]
      rfl
  have hdig : ∀ d ∈ Nat.toDigits 10 n, d.isDigit = true := fun d hd =>
    Nat.isDigit_of_mem_toDigits (by omega) (by omega) hd
  unfold valueOf natText
  rw [key _ 0 hdig, Nat.ofDigitChars_toDigits (by omega) (by omega)]

/-- Only zero is printed with a leading zero. -/
theorem natText_zero {n : Nat} (h : (natText n).head? = some (chr '0')) : natText n = [chr '0'] := by
  induction n using Nat.strongRecOn with
  | ind n ih =>
    by_cases hn : n < 10
    · have hone : ∀ n, n < 10 → (natText n).length = 1 := by decide
      obtain ⟨c, hc⟩ := List.length_eq_one_iff.mp (hone n hn)
      rw [hc, List.head?_cons, Option.some.injEq] at h
      rw [hc, h]
    · have happ : natText n = natText (n / 10) ++ [chr (Nat.digitChar (n % 10))] := by
        rw [natText, Nat.toDigits_of_base_le (by omega) (by omega), List.map_append]
        rfl
      rw [happ, List.head?_append_of_ne_nil _ (natText_ne_nil _)] at h
      have hzero := valueOf_natText (n / 10)
      rw [ih (n / 10) (by omega) h] at hzero
      have : valueOf 10 [chr '0'] = 0 := by decide
      omega

theorem fromChars_digits {limit n : Nat} {ds r : Bytes} (hds : ∀ c ∈ ds, isdigit c = true)
    (hne : ds ≠ []) (hv : valueOf 10 ds = n) (hn : n ≤ limit)
    (hr : ∀ c, r.head? = some c → isdigit c = false) :
    fromChars 10 limit (ds ++ r) = (.ok n, ds.length) := by
  have hp : isDigitOf 10 = isdigit := funext isDigitOf_ten
  simp only [fromChars, hp, takeWhile_append_stop hds hr, hv, hne, if_false]
  rw [if_neg (by omega)]

theorem fromCharsInt_intText {lo hi i : Int} (h₁ : lo ≤ i) (h₂ : i ≤ hi) :
    fromCharsInt lo hi (intText i) = (.ok i, (intText i).length) := by
  have hds : ((natText i.natAbs).takeWhile isdigit) = natText i.natAbs := by
    have := takeWhile_append_stop (r := []) (fun c => isdigit_of_mem_natText (n := i.natAbs) (c := c))
      (by simp)
    simpa using this
  by_cases hi' : i < 0
  · have hneg : (intText i).head? = some (chr '-') := by simp [intText, hi']
    have hdrop : (intText i).drop 1 = natText i.natAbs := by simp [intText, hi']
    have hlen : (intText i).length = (natText i.natAbs).length + 1 := by simp [intText, hi']
    simp only [fromCharsInt, hneg, if_true, hdrop, hds, natText_ne_nil, if_false, valueOf_natText, hlen]
    have hval : -(i.natAbs : Int) = i := by omega
    rw [hval, if_neg (by omega)]
  · have htext : intText i = natText i.natAbs := by simp [intText, hi']
    have hneg : (natText i.natAbs).head? ≠ some (chr '-') := by
      intro h
      have := isdigit_of_mem_natText (List.mem_of_mem_head? h)
      simp [isdigit] at this
    simp only [fromCharsInt, htext, hneg, if_false, hds, natText_ne_nil, valueOf_natText]
    have hval : (i.natAbs : Int) = i := by omega
    rw [hval, if_neg (by omega)]

end Chars
