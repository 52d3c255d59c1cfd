import LspFramework.Lib.FixedPoint
import LspFramework.Json.Stringify

/-!
# Trimmed decimals

`stringifyImplementation` is to drop the zeros at the end of the text of a `Decimal`.  Its loop starts at
the index behind the text, finds the NUL there and stops, so nothing is dropped:

    dropZeros s.length s = s                                                       (dropZeros_length)
    the last of the six decimals is a zero → more than the shortest text is printed    (trimming_iff)
-/

namespace Lsp.Json

open Chars

/-- The indices that the loop of `dropZeros` reads, each with the length of the text at that moment;
the second index of a round is read if there is a zero at the first. -/
def dropZerosReads : Nat → Bytes → List (Nat × Nat)
  | 0, _ => []
  | i + 1, numberStr =>
    if 2 < i + 1 then
      (i + 1, numberStr.length) ::
        if numberStr.getD (i + 1) 0 ≠ chr '0' then []
        else (i, numberStr.length) ::
          if numberStr.getD i 0 = chr '.' then [] else dropZerosReads i numberStr.dropLast
    else []

/-- The loop leaves the shortest text of the number. -/
def LeavesShortest (f : FixedPoint) : Prop :=
  ∃ g : FixedPoint, dropZeros f.text.length f.text = g.text ∧ g.minus = f.minus ∧ g.int = f.int ∧
    g.number = f.number ∧ g.Shortest

/-- What the loop is to do with the text of a number: it reads inside the text only. -/
structure Trims (f : FixedPoint) : Prop where
  inside : ∀ r ∈ dropZerosReads f.text.length f.text, r.1 < r.2
  shortest : LeavesShortest f

/-! ## The texts of `std::to_string` -/

theorem length_padded {n : Nat} (h : n < 10 ^ 6) :
    (List.replicate (6 - (natText n).length) (chr '0') ++ natText n).length = 6 := by
  have hlen : (natText n).length ≤ 6 := by
    rw [natText, List.length_map]
    exact (Nat.length_toDigits_le_iff (by decide) (by decide)).mpr h
  rw [List.length_append, List.length_replicate]
  exact Nat.sub_add_cancel hlen

theorem digits_natText (n : Nat) : Rfc8259.Digits (natText n) :=
  ⟨natText_ne_nil n, fun _ => isdigit_of_mem_natText⟩

theorem digits_padded (n : Nat) {ds : Bytes} (h : Rfc8259.Digits ds) :
    Rfc8259.Digits (List.replicate n (chr '0') ++ ds) := by
  refine ⟨List.append_ne_nil_of_right_ne_nil _ h.1, ?_⟩
  intro c hc
  rcases List.mem_append.mp hc with hc | hc
  · rw [List.eq_of_mem_replicate hc]
    decide
  · exact h.2 c hc

/-- A finite number is printed with six digits behind the point. -/
theorem fixedPoint_text (neg : Bool) {mant : Nat} {exp : Int} (h : Binary64.Canonical mant exp) :
    ∃ f : FixedPoint, Binary64.text (.finite neg mant exp h) = f.text ∧ f.frac.length = 6 := by
  exact ⟨⟨neg, _, _, digits_natText _, digits_padded _ (digits_natText _)⟩, rfl,
    length_padded (Nat.mod_lt _ (by decide))⟩

/-! ## The loop -/

/-- **The loop stops where it starts.** -/
theorem dropZeros_length (s : Bytes) : dropZeros s.length s = s := by
  cases h : s.length with
  | zero => rfl
  | succ n =>
    have hnul : s.getD (n + 1) 0 = 0 := by simp [← h]
    rw [dropZeros, hnul]
    split
    · rw [if_pos (.inl (by decide))]
    · rfl

/-- The first byte that is read is the NUL behind the text. -/
theorem reads_behind {s : Bytes} (h : 2 < s.length) : (s.length, s.length) ∈ dropZerosReads s.length s := by
  obtain ⟨n, hn⟩ : ∃ n, s.length = n + 1 := ⟨s.length - 1, by omega⟩
  rw [hn, dropZerosReads, if_pos (by omega), hn]
  exact List.mem_cons_self

theorem not_trims (f : FixedPoint) : ¬ Trims f := by
  intro ht
  exact Nat.lt_irrefl _ (ht.inside _ (reads_behind f.two_lt_length))

theorem leavesShortest_iff (f : FixedPoint) : LeavesShortest f ↔ f.Shortest := by
  rw [LeavesShortest, dropZeros_length]
  constructor
  · rintro ⟨g, htext, hminus, hint, -, hshort⟩
    have hfrac : g.frac = f.frac := by
      simp only [FixedPoint.text, hminus, hint, List.append_assoc, List.append_cancel_left_eq,
        List.cons.injEq, true_and] at htext
      exact htext.symm
    rwa [FixedPoint.shortest_iff, hfrac, ← FixedPoint.shortest_iff] at hshort
  · exact fun hshort => ⟨f, rfl, rfl, rfl, rfl, hshort⟩

/-- **Nothing is trimmed**: the loop reads behind the text, and the text is the shortest one only if it
was before. -/
theorem trimming_iff (f : FixedPoint) (h : f.frac.length = 6) :
    ¬ Trims f ∧ (LeavesShortest f ↔ f.frac.getLast? ≠ some (chr '0')) := by
  refine ⟨not_trims f, ?_⟩
  rw [leavesShortest_iff, FixedPoint.shortest_iff]
  exact or_iff_left (by omega)

def twelve : FixedPoint where
  minus := false
  int := bytes "12"
  frac := bytes "340000"
  int_ok := ⟨by decide, by decide +kernel⟩
  frac_ok := ⟨by decide, by decide +kernel⟩

theorem trimming_twelve : ¬ Trims twelve ∧ (LeavesShortest twelve ↔ twelve.frac.getLast? ≠ some (chr '0')) :=
  trimming_iff twelve (by decide)

/-- `12.34` is printed with all six digits. -/
theorem not_trims_twelve :
    (Binary64.round false 1234 100).text = twelve.text ∧
      stringify (.decimal (.round false 1234 100)) false = bytes "12.340000" ∧
      ¬ Trims twelve ∧ ¬ LeavesShortest twelve := by
  refine ⟨by decide +kernel, by decide +kernel, not_trims twelve, ?_⟩
  rw [leavesShortest_iff, FixedPoint.shortest_iff]
  decide

end Lsp.Json
