import Mathlib.Logic.Relation

/-!
# Loops

A `while` loop is given by one function, `turn`: from the state at the loop head it
either goes on with a new state or leaves with an answer.

* `run turn n s` plays at most `n` turns; `none` means the loop is still running.
* `Ends turn s r`: some number of turns leads from `s` to the answer `r`.
* `Reaches turn s s'`: the loop gets from `s` to the loop head in `s'`.
* `complete turn μ hμ s` is the answer itself, for a loop whose turns decrease `μ`.
* `Gives f a`, `Diverges f`: the same for a function that plays such loops with given fuel.

The rules below are the ones a proof about such a loop needs: answers are unique, a
turn or a stretch of turns can be skipped, a measure gives an answer, and an invariant
that always allows one more turn gives a loop that never ends.
-/

namespace Loop

inductive Turn (σ ρ : Type) where
  | next (s : σ)
  | done (r : ρ)

variable {σ ρ : Type} {turn : σ → Turn σ ρ}

def run (turn : σ → Turn σ ρ) : Nat → σ → Option ρ
  | 0, _ => none
  | n + 1, s =>
    match turn s with
    | .next s' => run turn n s'
    | .done r => some r

def Ends (turn : σ → Turn σ ρ) (s : σ) (r : ρ) : Prop := ∃ n, run turn n s = some r

def Reaches (turn : σ → Turn σ ρ) : σ → σ → Prop :=
  Relation.ReflTransGen fun s s' => turn s = .next s'

theorem run_next {s s' : σ} (h : turn s = .next s') (n : Nat) :
    run turn (n + 1) s = run turn n s' := by
  simp only [run, h]

theorem run_done {s : σ} {r : ρ} (h : turn s = .done r) (n : Nat) :
    run turn (n + 1) s = some r := by
  simp only [run, h]

/-- More turns than needed do not change the answer. -/
theorem run_mono {n m : Nat} {s : σ} {r : ρ} (h : run turn n s = some r) (hnm : n ≤ m) :
    run turn m s = some r := by
  induction n generalizing m s with
  | zero => simp [run] at h
  | succ n ih =>
    obtain ⟨m, rfl⟩ : ∃ k, m = k + 1 := ⟨m - 1, by omega⟩
    cases ht : turn s with
    | next s' =>
      rw [run_next ht] at h ⊢
      exact ih h (by omega)
    | done r' =>
      rw [run_done ht] at h ⊢
      exact h

theorem Ends.unique {s : σ} {r r' : ρ} (h : Ends turn s r) (h' : Ends turn s r') : r = r' := by
  obtain ⟨n, hn⟩ := h
  obtain ⟨m, hm⟩ := h'
  have h₁ := run_mono hn (Nat.le_max_left n m)
  have h₂ := run_mono hm (Nat.le_max_right n m)
  exact Option.some.inj (h₁.symm.trans h₂)

theorem ends_next {s s' : σ} (h : turn s = .next s') (r : ρ) : Ends turn s r ↔ Ends turn s' r := by
  constructor
  · rintro ⟨n, hn⟩
    cases n with
    | zero => simp [run] at hn
    | succ n => exact ⟨n, by rwa [run_next h] at hn⟩
  · rintro ⟨n, hn⟩
    exact ⟨n + 1, by rwa [run_next h]⟩

theorem ends_done {s : σ} {r : ρ} (h : turn s = .done r) : Ends turn s r :=
  ⟨1, run_done h 0⟩

theorem Reaches.refl (s : σ) : Reaches turn s s := Relation.ReflTransGen.refl

theorem Reaches.head {s s' s'' : σ} (h : turn s = .next s') (h' : Reaches turn s' s'') :
    Reaches turn s s'' :=
  Relation.ReflTransGen.head h h'

theorem Reaches.trans {s s' s'' : σ} (h : Reaches turn s s') (h' : Reaches turn s' s'') :
    Reaches turn s s'' :=
  Relation.ReflTransGen.trans h h'

/-- **A stretch of turns can be skipped.** -/
theorem Reaches.ends_iff {s s' : σ} (h : Reaches turn s s') (r : ρ) :
    Ends turn s r ↔ Ends turn s' r := by
  induction h with
  | refl => rfl
  | tail _ ht ih => exact ih.trans (ends_next ht r)

/-- A loop that reaches a place it never leaves never ends. -/
theorem Reaches.run_eq_none {s s' : σ} (h : Reaches turn s s') (hs : ∀ n, run turn n s' = none) (n : Nat) :
    run turn n s = none := by
  cases hr : run turn n s with
  | none => rfl
  | some r =>
    obtain ⟨m, hm⟩ := (h.ends_iff r).1 ⟨n, hr⟩
    rw [hs m] at hm
    cases hm

/-- **A loop that can always take one more turn never ends.** -/
theorem run_eq_none_of_invariant {I : σ → Prop} (hI : ∀ s, I s → ∃ s', turn s = .next s' ∧ I s')
    {s : σ} (hs : I s) (n : Nat) : run turn n s = none := by
  induction n generalizing s with
  | zero => rfl
  | succ n ih =>
    obtain ⟨s', ht, hs'⟩ := hI s hs
    rw [run_next ht]
    exact ih hs'

/-- The answer of a loop whose turns decrease `μ`. -/
def complete (turn : σ → Turn σ ρ) (μ : σ → Nat)
    (hμ : ∀ s s', turn s = .next s' → μ s' < μ s) (s : σ) : ρ :=
  match _h : turn s with
  | .next s' => complete turn μ hμ s'
  | .done r => r
termination_by μ s
decreasing_by exact hμ s s' _h

section Measure

variable (μ : σ → Nat) (hμ : ∀ s s', turn s = .next s' → μ s' < μ s)

theorem ends_complete (s : σ) : Ends turn s (complete turn μ hμ s) := by
  induction hn : μ s using Nat.strongRecOn generalizing s with
  | ind n ih =>
    subst hn
    rw [complete]
    split
    · next s' ht => exact (ends_next ht _).2 (ih _ (hμ s s' ht) s' rfl)
    · next r ht => exact ends_done ht

theorem complete_eq_iff (s : σ) (r : ρ) : complete turn μ hμ s = r ↔ Ends turn s r := by
  constructor
  · rintro rfl
    exact ends_complete μ hμ s
  · intro h
    exact (ends_complete μ hμ s).unique h

end Measure

/-! ## Computations with fuel

A function that plays loops which need not end takes its fuel as an argument; `none` means that the
fuel ran out. -/

/-- Enough fuel gives `a`, and no fuel gives anything else. -/
structure Gives {α : Type} (f : Nat → Option α) (a : α) : Prop where
  enough : ∃ N, ∀ n, N ≤ n → f n = some a
  only : ∀ n b, f n = some b → b = a

def Diverges {α : Type} (f : Nat → Option α) : Prop := ∀ n, f n = none

section Fuel

variable {α β : Type} {f : Nat → Option α} {g : α → Nat → Option β} {a : α} {b : β}

theorem Gives.const (a : α) : Gives (fun _ => some a) a :=
  ⟨⟨0, fun _ _ => rfl⟩, fun _ _ h => (Option.some.inj h).symm⟩

theorem Gives.exists_fuel (h : Gives f a) : ∃ n, f n = some a := by
  obtain ⟨N, hN⟩ := h.enough
  exact ⟨N, hN N (Nat.le_refl N)⟩

theorem Ends.gives {s : σ} {r : ρ} (h : Ends turn s r) : Gives (fun n => run turn n s) r := by
  refine ⟨?_, fun n b hb => Ends.unique ⟨n, hb⟩ h⟩
  obtain ⟨N, hN⟩ := h
  exact ⟨N, fun n hn => run_mono hN hn⟩

theorem Gives.bind (hf : Gives f a) (hg : Gives (g a) b) :
    Gives (fun n => (f n).bind fun a => g a n) b := by
  constructor
  · obtain ⟨N, hN⟩ := hf.enough
    obtain ⟨M, hM⟩ := hg.enough
    refine ⟨max N M, ?_⟩
    intro n hn
    show (f n).bind _ = _
    rw [hN n (by omega), Option.bind_some, hM n (by omega)]
  · intro n c hc
    obtain ⟨a', ha', hc⟩ := Option.bind_eq_some_iff.mp hc
    obtain rfl := hf.only n a' ha'
    exact hg.only n c hc

theorem Gives.map (hf : Gives f a) (h : α → β) : Gives (fun n => (f n).map h) (h a) := by
  constructor
  · obtain ⟨N, hN⟩ := hf.enough
    refine ⟨N, ?_⟩
    intro n hn
    show (f n).map h = _
    rw [hN n hn, Option.map_some]
  · intro n b hb
    obtain ⟨a', ha', rfl⟩ := Option.map_eq_some_iff.mp hb
    rw [hf.only n a' ha']

theorem Diverges.map (hf : Diverges f) (h : α → β) : Diverges fun n => (f n).map h := by
  intro n
  show (f n).map h = none
  rw [hf n, Option.map_none]

theorem Diverges.bind (hf : Diverges f) : Diverges fun n => (f n).bind fun a => g a n := by
  intro n
  show (f n).bind _ = none
  rw [hf n, Option.bind_none]

theorem Gives.bind_diverges (hf : Gives f a) (hg : Diverges (g a)) :
    Diverges fun n => (f n).bind fun a => g a n := by
  intro n
  show (f n).bind _ = none
  cases h : f n with
  | none => rfl
  | some a' =>
    obtain rfl := hf.only n a' h
    exact hg n

/-- A function that spends one unit of fuel before it goes on as `f'`. -/
theorem Gives.of_succ {f' : Nat → Option α} (h₀ : f 0 = none) (h : ∀ n, f (n + 1) = f' n)
    (hf : Gives f' a) : Gives f a := by
  constructor
  · obtain ⟨N, hN⟩ := hf.enough
    refine ⟨N + 1, ?_⟩
    intro n hn
    obtain ⟨m, rfl⟩ : ∃ m, n = m + 1 := ⟨n - 1, by omega⟩
    rw [h, hN m (by omega)]
  · intro n b hb
    cases n with
    | zero => simp [h₀] at hb
    | succ n => exact hf.only n b (h n ▸ hb)

theorem Diverges.of_succ {f' : Nat → Option α} (h₀ : f 0 = none) (h : ∀ n, f (n + 1) = f' n)
    (hf : Diverges f') : Diverges f := by
  intro n
  cases n with
  | zero => exact h₀
  | succ n => rw [h, hf n]

end Fuel

end Loop
