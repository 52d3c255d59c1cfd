import Mathlib.Algebra.Order.Field.Basic
import Mathlib.Algebra.Order.Field.Rat
import Mathlib.Tactic.Ring
import LspFramework.Lib.Rfc8259

/-!
# Fixed-point texts

A sign, digits, a point and more digits, and the number they denote.  With the digits before the point
kept, the shortest text of a number is the one that ends in no zero, or has one digit behind the point:

    f.Shortest ↔ f.frac.getLast? ≠ some '0' ∨ f.frac.length = 1                       (shortest_iff)
-/

open Chars
open Rfc8259 (Digits)

structure FixedPoint where
  minus : Bool
  int : Bytes
  frac : Bytes
  int_ok : Digits int
  frac_ok : Digits frac

namespace FixedPoint

def text (f : FixedPoint) : Bytes := (if f.minus then [chr '-'] else []) ++ f.int ++ chr '.' :: f.frac

def sign (f : FixedPoint) : ℚ := if f.minus then -1 else 1

def number (f : FixedPoint) : ℚ := f.sign * (valueOf 10 (f.int ++ f.frac) / 10 ^ f.frac.length)

/-- No text with the same digits before the point denotes the number and is shorter. -/
def Shortest (f : FixedPoint) : Prop :=
  ∀ g : FixedPoint, g.minus = f.minus → g.int = f.int → g.number = f.number → f.text.length ≤ g.text.length

theorem length_text (f : FixedPoint) :
    f.text.length = (if f.minus then 1 else 0) + f.int.length + 1 + f.frac.length := by
  rw [text]
  split <;> simp <;> omega

/-- Two bytes at least and a point. -/
theorem two_lt_length (f : FixedPoint) : 2 < f.text.length := by
  have hint := List.length_pos_iff.mpr f.int_ok.1
  have hfrac := List.length_pos_iff.mpr f.frac_ok.1
  rw [length_text]
  omega

theorem valueOf_concat (s : Bytes) (c : UInt8) : valueOf 10 (s ++ [c]) = 10 * valueOf 10 s + digitVal c := by
  rw [valueOf, List.foldl_append]
  rfl

theorem digitVal_zero_iff : ∀ c : UInt8, isdigit c = true → (digitVal c = 0 ↔ c = chr '0') :=
  forall_byte (by decide +kernel)

theorem digitVal_lt : ∀ c : UInt8, isdigit c = true → digitVal c < 10 :=
  forall_byte (by decide +kernel)

/-- The digits of a text are a multiple of ten when the last one is a zero. -/
theorem dvd_valueOf_iff {s : Bytes} {c : UInt8} (hc : isdigit c = true) :
    10 ∣ valueOf 10 (s ++ [c]) ↔ c = chr '0' := by
  have hlt := digitVal_lt c hc
  rw [valueOf_concat, ← digitVal_zero_iff c hc]
  omega

theorem number_eq_iff {f g : FixedPoint} (hminus : g.minus = f.minus) :
    g.number = f.number ↔
      valueOf 10 (g.int ++ g.frac) * 10 ^ f.frac.length = valueOf 10 (f.int ++ f.frac) * 10 ^ g.frac.length := by
  have hsign : f.sign ≠ 0 := by
    rw [sign]
    split <;> norm_num
  have hpow : ∀ k : ℕ, (10 : ℚ) ^ k ≠ 0 := fun k => pow_ne_zero k (by norm_num)
  have hg : g.sign = f.sign := by rw [sign, sign, hminus]
  rw [number, number, hg, mul_right_inj' hsign, div_eq_div_iff (hpow _) (hpow _)]
  norm_cast

/-- A zero at the end of the fraction can be left out, if it is not alone. -/
theorem number_dropLast (f : FixedPoint) {ds : Bytes} (hfrac : f.frac = ds ++ [chr '0']) (hds : Digits ds) :
    number { f with frac := ds, frac_ok := hds } = f.number := by
  have hzero : digitVal (chr '0') = 0 := by decide
  apply (number_eq_iff (f := f) (g := { f with frac := ds, frac_ok := hds }) rfl).mpr
  rw [hfrac, ← List.append_assoc, valueOf_concat, hzero, List.length_append, List.length_singleton, pow_succ]
  ring

/-- A text that ends in a digit other than zero has no text of the same number with fewer digits. -/
theorem length_frac_le {f g : FixedPoint} {ds : Bytes} {c : UInt8} (hfrac : f.frac = ds ++ [c])
    (hc : c ≠ chr '0') (hminus : g.minus = f.minus) (hnumber : g.number = f.number) :
    f.frac.length ≤ g.frac.length := by
  by_contra hlt
  obtain ⟨k, hk⟩ : ∃ k, f.frac.length = g.frac.length + (k + 1) := ⟨f.frac.length - g.frac.length - 1, by omega⟩
  have hdigit : isdigit c = true := f.frac_ok.2 c (by simp [hfrac])
  have heq := (number_eq_iff hminus).mp hnumber
  have hvalue : valueOf 10 (f.int ++ f.frac) = valueOf 10 (g.int ++ g.frac) * 10 ^ k * 10 := by
    apply Nat.eq_of_mul_eq_mul_right (Nat.pow_pos (by omega : 0 < 10) (n := g.frac.length))
    rw [← heq, hk, pow_add, pow_succ]
    ring
  have hdvd : 10 ∣ valueOf 10 ((f.int ++ ds) ++ [c]) := by
    rw [List.append_assoc, ← hfrac, hvalue]
    exact Nat.dvd_mul_left 10 _
  exact hc ((dvd_valueOf_iff hdigit).mp hdvd)

/-- **The shortest text ends in no zero that is not alone behind the point.** -/
theorem shortest_iff (f : FixedPoint) :
    f.Shortest ↔ f.frac.getLast? ≠ some (chr '0') ∨ f.frac.length = 1 := by
  obtain ⟨ds, c, hfrac⟩ : ∃ ds c, f.frac = ds ++ [c] :=
    ⟨_, _, (List.dropLast_append_getLast f.frac_ok.1).symm⟩
  have hlast : f.frac.getLast? = some c := by simp [hfrac]
  constructor
  · intro hshort
    by_contra hnot
    obtain ⟨hzero, hone⟩ := not_or.mp hnot
    obtain rfl : c = chr '0' := by
      rw [not_not, hlast] at hzero
      exact Option.some.inj hzero
    have hne : ds ≠ [] := by
      rintro rfl
      exact hone (by simp [hfrac])
    have hds : Digits ds := ⟨hne, fun d hd => f.frac_ok.2 d (by simp [hfrac, hd])⟩
    have hle := hshort { f with frac := ds, frac_ok := hds } rfl rfl (number_dropLast f hfrac hds)
    simp only [length_text, hfrac, List.length_append, List.length_singleton] at hle
    omega
  · intro hend g hminus hint hnumber
    have hle : f.frac.length ≤ g.frac.length := by
      rcases hend with hne | hone
      · exact length_frac_le hfrac (fun h => hne (by rw [hlast, h])) hminus hnumber
      · have := List.length_pos_iff.mpr g.frac_ok.1
        omega
    rw [length_text, length_text, hminus, hint]
    omega

end FixedPoint
