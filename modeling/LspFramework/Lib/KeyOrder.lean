import Mathlib.Order.Defs.Unbundled
import Mathlib.Data.List.Basic

/-!
# Orders through a key

Values compared through a key: `Below key a b` says that the key of `a` is less.  Two values with one key
are neither below the other, so the order tells a pair apart exactly where the key does, and an ordered
container keeps one value for each key.

    ExactlyOne (Below key a b) (a = b) (Below key b a) ↔ (key a = key b → a = b)        (exactlyOne_iff)
    b ∈ insert key b (insert key a []) ↔ (key a = key b → a = b)                           (kept_iff)
-/

namespace KeyOrder

/-- One of the three holds and no other. -/
def ExactlyOne (p q r : Prop) : Prop := (p ∧ ¬q ∧ ¬r) ∨ (¬p ∧ q ∧ ¬r) ∨ (¬p ∧ ¬q ∧ r)

section KeyOrder

variable {α κ : Type} [LT κ]

def Below (key : α → κ) (a b : α) : Prop := key a < key b

instance (key : α → κ) [DecidableLT κ] (a b : α) : Decidable (Below key a b) :=
  inferInstanceAs (Decidable (key a < key b))

/-- `insert` of an ordered container: nothing where there is a value that is neither above nor below. -/
def insert (key : α → κ) [DecidableLT κ] (b : α) : List α → List α
  | [] => [b]
  | a :: as =>
    if Below key b a then b :: a :: as
    else if Below key a b then a :: insert key b as
    else a :: as

variable {key : α → κ} [Std.Asymm (α := κ) (· < ·)]

theorem below_asymm {a b : α} (h : Below key a b) : ¬ Below key b a := Std.Asymm.asymm (r := (· < ·)) _ _ h

theorem not_below_of_eq {a b : α} (h : key a = key b) : ¬ Below key a b := by
  intro hlt
  have hself : Below key a a := by
    rw [Below] at hlt ⊢
    rwa [← h] at hlt
  exact below_asymm hself hself

variable [Std.Trichotomous (α := κ) (· < ·)]

/-- Neither is below the other exactly where the keys are equal. -/
theorem incomparable_iff {a b : α} : ¬ Below key a b ∧ ¬ Below key b a ↔ key a = key b := by
  constructor
  · exact fun h => Std.Trichotomous.trichotomous (r := (· < ·)) _ _ h.1 h.2
  · exact fun h => ⟨not_below_of_eq h, not_below_of_eq h.symm⟩

/-- **The order tells two values apart where the key does.** -/
theorem exactlyOne_iff (a b : α) :
    ExactlyOne (Below key a b) (a = b) (Below key b a) ↔ (key a = key b → a = b) := by
  constructor
  · rintro (⟨hlt, -, -⟩ | ⟨-, heq, -⟩ | ⟨-, -, hlt⟩) hkey
    · exact absurd hlt (not_below_of_eq hkey)
    · exact heq
    · exact absurd hlt (not_below_of_eq hkey.symm)
  · intro h
    by_cases hkey : key a = key b
    · exact .inr (.inl ⟨not_below_of_eq hkey, h hkey, not_below_of_eq hkey.symm⟩)
    · have hne : a ≠ b := fun heq => hkey (congrArg key heq)
      by_cases hlt : Below key a b
      · exact .inl ⟨hlt, hne, below_asymm hlt⟩
      · by_cases hgt : Below key b a
        · exact .inr (.inr ⟨hlt, hne, hgt⟩)
        · exact absurd (incomparable_iff.mp ⟨hlt, hgt⟩) hkey

/-- A value is kept beside another one where the key tells them apart. -/
theorem kept_iff [DecidableLT κ] (a b : α) : b ∈ insert key b (insert key a []) ↔ (key a = key b → a = b) := by
  rw [insert, insert]
  by_cases hgt : Below key b a
  · rw [if_pos hgt]
    exact iff_of_true List.mem_cons_self fun hkey => absurd hgt (not_below_of_eq hkey.symm)
  · rw [if_neg hgt]
    by_cases hlt : Below key a b
    · rw [if_pos hlt]
      exact iff_of_true (by simp [insert]) fun hkey => absurd hlt (not_below_of_eq hkey)
    · rw [if_neg hlt, List.mem_singleton, eq_comm]
      exact ⟨fun heq _ => heq, fun h => h (incomparable_iff.mp ⟨hlt, hgt⟩)⟩

end KeyOrder

end KeyOrder
