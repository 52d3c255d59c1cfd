import Mathlib.Data.List.Forall2

/-!
# Loops that may fail

A loop over a list whose body gives `none` to end the whole computation.

* `mapM_isSome_iff`, `foldlM_isSome_iff`: the loop goes through exactly when the body does for each
  element, if that does not depend on the state.
* `foldlM_append`: a loop that fails with an error, and appends to a list.
* `mapM_eq_some_iff`: the results stand in the order of the list.
-/

namespace Fallible

variable {α β γ σ : Type}

theorem isSome_map_iff {x : Option α} {p : Prop} (f : α → β) (h : x.isSome = true ↔ p) :
    (x.map f).isSome = true ↔ p := by
  rw [Option.isSome_map, h]

theorem isSome_bind_map_iff {x : Option α} {g : α → Option β} {p : Prop} (f : α → β → γ)
    (h : ∀ a, (g a).isSome = true ↔ p) :
    (x.bind fun a => (g a).map (f a)).isSome = true ↔ x.isSome = true ∧ p := by
  cases x with
  | none => simp
  | some a => simp [h a]

theorem mapM_isSome_iff {f : α → Option β} {p : α → Prop} (h : ∀ a, (f a).isSome = true ↔ p a)
    (l : List α) : (l.mapM f).isSome = true ↔ ∀ a ∈ l, p a := by
  induction l with
  | nil => simp
  | cons a l ih =>
    rw [List.mapM_cons, List.forall_mem_cons, ← ih, ← h a]
    cases f a with
    | none => simp
    | some b => cases l.mapM f <;> simp

theorem foldlM_isSome_iff {f : σ → α → Option σ} {p : α → Prop}
    (h : ∀ s a, (f s a).isSome = true ↔ p a) (l : List α) (s : σ) :
    (l.foldlM f s).isSome = true ↔ ∀ a ∈ l, p a := by
  induction l generalizing s with
  | nil => simp
  | cons a l ih =>
    rw [List.foldlM_cons, List.forall_mem_cons, ← h s a]
    show ((f s a).bind fun s => l.foldlM f s).isSome = true ↔ _
    cases f s a with
    | none => simp
    | some s' => simp [ih s']

theorem mapM_eq_some_iff {f : α → Option β} {l : List α} {l' : List β} :
    l.mapM f = some l' ↔ List.Forall₂ (fun a b => f a = some b) l l' := by
  induction l generalizing l' with
  | nil =>
    rw [List.mapM_nil, List.forall₂_nil_left_iff]
    exact ⟨fun h => (Option.some.inj h).symm, fun h => congrArg some h.symm⟩
  | cons a l ih =>
    rw [List.mapM_cons, List.forall₂_cons_left_iff]
    show ((f a).bind fun b => (l.mapM f).bind fun bs => some (b :: bs)) = some l' ↔ _
    simp only [Option.bind_eq_some_iff, Option.some.injEq, ih]
    constructor
    · rintro ⟨b, hb, bs, hbs, rfl⟩
      exact ⟨b, bs, hb, hbs, rfl⟩
    · rintro ⟨b, bs, hb, hbs, rfl⟩
      exact ⟨b, hb, bs, hbs, rfl⟩

theorem mem_mapM {f : α → Option β} {l : List α} {l' : List β} (h : l.mapM f = some l') {a : α} (ha : a ∈ l) :
    ∃ b ∈ l', f a = some b := by
  replace h := mapM_eq_some_iff.mp h
  induction h with
  | nil => cases ha
  | cons hb _ ih =>
    rcases List.mem_cons.mp ha with rfl | ha
    · exact ⟨_, List.mem_cons_self, hb⟩
    · obtain ⟨b, hmem, hb⟩ := ih ha
      exact ⟨b, List.mem_cons_of_mem _ hmem, hb⟩

theorem filterMap_of_mapM {f : α → Option β} {l : List α} {l' : List β} (h : l.mapM f = some l') :
    l.filterMap f = l' := by
  replace h := mapM_eq_some_iff.mp h
  induction h with
  | nil => rfl
  | cons hb _ ih => rw [List.filterMap_cons_some hb, ih]

/-- What is asked of the results can be read off the elements. -/
theorem map_of_mapM {f : α → Option β} {g : β → γ} {k : α → γ} {l : List α} {l' : List β} (h : l.mapM f = some l')
    (hk : ∀ a b, f a = some b → g b = k a) : l'.map g = l.map k := by
  replace h := mapM_eq_some_iff.mp h
  induction h with
  | nil => rfl
  | cons hb _ ih => rw [List.map_cons, List.map_cons, hk _ _ hb, ih]

theorem mapM_choose {f : α → Option β} {p : β → Prop} {l : List α} (h : ∀ a ∈ l, ∃ b, f a = some b ∧ p b) :
    ∃ bs, l.mapM f = some bs ∧ ∀ b ∈ bs, p b := by
  induction l with
  | nil => exact ⟨[], rfl, nofun⟩
  | cons a l ih =>
    obtain ⟨b, hb, hpb⟩ := h a List.mem_cons_self
    obtain ⟨bs, hbs, hpbs⟩ := ih fun a ha => h a (List.mem_cons_of_mem _ ha)
    refine ⟨b :: bs, ?_, List.forall_mem_cons.mpr ⟨hpb, hpbs⟩⟩
    rw [List.mapM_cons, hb, hbs]
    rfl

theorem forall₂_and {R S : α → β → Prop} {l : List α} {l' : List β} (h : List.Forall₂ R l l')
    (h' : List.Forall₂ S l l') : List.Forall₂ (fun a b => R a b ∧ S a b) l l' := by
  induction h with
  | nil => exact .nil
  | cons hab _ ih =>
    cases h' with
    | cons hab' h' => exact .cons ⟨hab, hab'⟩ (ih h')

theorem bind_eq_ok_iff {ε : Type} {x : Except ε α} {f : α → Except ε β} {b : β} :
    (x >>= f) = .ok b ↔ ∃ a, x = .ok a ∧ f a = .ok b := by
  cases x with
  | error e => exact ⟨nofun, fun ⟨_, h, _⟩ => nomatch h⟩
  | ok a =>
    constructor
    · exact fun h => ⟨a, rfl, h⟩
    · rintro ⟨a', ha, h⟩
      cases ha
      exact h

theorem exists_foldlM_ok {ε : Type} {f : σ → α → Except ε σ} {l : List α} (h : ∀ a ∈ l, ∀ s, ∃ s', f s a = .ok s')
    (s : σ) : ∃ s', l.foldlM f s = .ok s' := by
  induction l generalizing s with
  | nil => exact ⟨s, rfl⟩
  | cons a l ih =>
    obtain ⟨hfirst, hrest⟩ := List.forall_mem_cons.mp h
    obtain ⟨t, ht⟩ := hfirst s
    obtain ⟨s', hs'⟩ := ih hrest t
    exact ⟨s', bind_eq_ok_iff.mpr ⟨t, ht, hs'⟩⟩

/-- A loop that appends to a list appends for each element. -/
theorem foldlM_append {ε : Type} {f : σ → α → Except ε σ} (proj : σ → List β) (g : α → List β)
    (hf : ∀ s a s', f s a = .ok s' → proj s' = proj s ++ g a) {l : List α} {s s' : σ}
    (h : l.foldlM f s = .ok s') : proj s' = proj s ++ l.flatMap g := by
  induction l generalizing s with
  | nil =>
    cases h
    simp
  | cons a l ih =>
    rw [List.foldlM_cons] at h
    obtain ⟨t, hs, h⟩ := bind_eq_ok_iff.mp h
    rw [ih h, hf s a t hs, List.flatMap_cons, List.append_assoc]

theorem flatMap_filterMap (f : α → Option β) (g : β → List γ) (l : List α) :
    (l.filterMap f).flatMap g = l.flatMap fun a => (f a).toList.flatMap g := by
  induction l with
  | nil => rfl
  | cons a l ih =>
    rw [List.flatMap_cons, ← ih]
    cases h : f a with
    | none => simp [h]
    | some b => simp [h]

/-- What holds of each pair of elements gives a third list. -/
theorem forall₂_choose {R : α → β → Prop} {S : β → γ → Prop} {Q : α → γ → Prop} {l : List α} {l' : List β}
    (h : List.Forall₂ R l l') (hc : ∀ a ∈ l, ∀ b, R a b → ∃ c, S b c ∧ Q a c) :
    ∃ l'', List.Forall₂ S l' l'' ∧ List.Forall₂ Q l l'' := by
  induction h with
  | nil => exact ⟨[], .nil, .nil⟩
  | @cons a b l l' hab _ ih =>
    obtain ⟨c, hs, hq⟩ := hc a List.mem_cons_self b hab
    obtain ⟨l'', hss, hqs⟩ := ih fun a ha => hc a (List.mem_cons_of_mem _ ha)
    exact ⟨c :: l'', .cons hs hss, .cons hq hqs⟩

end Fallible
