import Mathlib.Data.List.Induction

/-!
# Definitions in order

A list of definitions of some language: each one declares names, mentions names, and needs some of them
to be complete.  It can stand where all it needs is known and all it mentions is known or its own.

    Ordered known (ds ++ es) ↔ Ordered known ds ∧ Ordered (known and what ds declares) es  (ordered_append_iff)
    Ordered known ds ↔ each definition is Admissible behind those before it                (ordered_iff)
-/

namespace Definitions

structure Language (δ ν : Type) where
  declares : δ → List ν
  needs : δ → List ν
  mentions : δ → List ν

variable {δ ν : Type} (L : Language δ ν)

/-- The definition can stand where these names are known. -/
structure Admissible (known : ν → Prop) (d : δ) : Prop where
  needs : ∀ n ∈ L.needs d, known n
  mentions : ∀ n ∈ L.mentions d, known n ∨ n ∈ L.declares d

/-- What is known behind definitions. -/
def Known (known : ν → Prop) (ds : List δ) (n : ν) : Prop := known n ∨ ∃ d ∈ ds, n ∈ L.declares d

def Ordered : (ν → Prop) → List δ → Prop
  | _, [] => True
  | known, d :: ds => Admissible L known d ∧ Ordered (Known L known [d]) ds

variable {L}

theorem Known.mono {known : ν → Prop} {ds es : List δ} {n : ν} (h : Known L known ds n) :
    Known L known (ds ++ es) n := by
  rcases h with h | ⟨d, hd, hn⟩
  · exact .inl h
  · exact .inr ⟨d, List.mem_append_left _ hd, hn⟩

theorem known_nil {known : ν → Prop} : Known L known [] = known := by
  funext n
  simp [Known]

theorem known_append {known : ν → Prop} {ds es : List δ} :
    Known L known (ds ++ es) = Known L (Known L known ds) es := by
  funext n
  simp [Known, or_and_right, exists_or, or_assoc]

theorem Admissible.mono {known known' : ν → Prop} {d : δ} (h : Admissible L known d)
    (hknown : ∀ n, known n → known' n) : Admissible L known' d where
  needs n hn := hknown n (h.needs n hn)
  mentions n hn := (h.mentions n hn).imp_left (hknown n)

theorem ordered_append_iff {known : ν → Prop} {ds es : List δ} :
    Ordered L known (ds ++ es) ↔ Ordered L known ds ∧ Ordered L (Known L known ds) es := by
  induction ds generalizing known with
  | nil => simp [Ordered, known_nil]
  | cons d ds ih =>
    rw [List.cons_append, Ordered, Ordered, ih, and_assoc, ← known_append]
    rfl

/-- One more definition, behind the others. -/
theorem Ordered.concat {known : ν → Prop} {ds : List δ} {d : δ} (h : Ordered L known ds)
    (hd : Admissible L (Known L known ds) d) : Ordered L known (ds ++ [d]) :=
  ordered_append_iff.mpr ⟨h, hd, trivial⟩

/-- **Each definition stands behind those it rests on.** -/
theorem ordered_iff {known : ν → Prop} {ds : List δ} :
    Ordered L known ds ↔
      ∀ before d after, ds = before ++ d :: after → Admissible L (Known L known before) d := by
  constructor
  · rintro h before d after rfl
    exact (ordered_append_iff.mp h).2.1
  · induction ds using List.reverseRecOn with
    | nil => exact fun _ => trivial
    | append_singleton ds d ih =>
      intro h
      refine Ordered.concat (ih fun before e after heq => ?_) (h ds d [] rfl)
      exact h before e (after ++ [d]) (by rw [heq, List.append_assoc, List.cons_append])

end Definitions
