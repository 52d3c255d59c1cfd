import Mathlib.Data.List.Chain

/-!
# Replacing in texts

`find` searches for a pattern from the left, and `replace` replaces what it finds, going on behind it.

    find [a, b] s = none ↔ NoPair a b s                                       (find_pair_eq_none_iff)
    find [a, b] (pre ++ a :: b :: post) = some pre.length, with no pair in pre ++ [a]    (find_pair_append)

With a letter `c` between the two letters of a pair the pair is gone, and no other pair without `c` comes
in: `noPair_replace`, `noPair_replace_of_noPair`.
-/

namespace Replace

variable {α : Type}

section Definitions

variable [DecidableEq α]

/-- The start of the first occurrence. -/
def find (pattern : List α) : List α → Option Nat
  | [] => if pattern = [] then some 0 else none
  | x :: s => if pattern.isPrefixOf (x :: s) then some 0 else (find pattern s).map (· + 1)

def replaceFrom (pattern replacement : List α) : Nat → List α → List α
  | 0, s => s
  | fuel + 1, s =>
    match find pattern s with
    | none => s
    | some idx => s.take idx ++ replacement ++ replaceFrom pattern replacement fuel (s.drop (idx + pattern.length))

/-- For a pattern that is not empty, so that each round takes something away. -/
def replace (pattern replacement s : List α) : List α := replaceFrom pattern replacement s.length s

end Definitions

/-! ## Pairs -/

/-- The letter `b` never follows the letter `a`. -/
def NoPair (a b : α) (s : List α) : Prop := s.IsChain fun x y => ¬ (x = a ∧ y = b)

theorem noPair_append_cons {a b c : α} (hca : c ≠ a) (hcb : c ≠ b) {s s' : List α} (h : NoPair a b s)
    (h' : NoPair a b s') : NoPair a b (s ++ c :: s') := by
  refine List.isChain_append.mpr ⟨h, List.isChain_cons.mpr ⟨?_, h'⟩, ?_⟩
  · rintro y - ⟨hc, -⟩
    exact hca hc
  · rintro x - y hy ⟨-, hb⟩
    obtain rfl := Option.some.inj hy
    exact hcb hb

variable [DecidableEq α]

theorem isPrefixOf_pair_iff {a b x : α} {s : List α} :
    [a, b].isPrefixOf (x :: s) = true ↔ x = a ∧ s.head? = some b := by
  rw [List.isPrefixOf_cons_cons, Bool.and_eq_true, beq_iff_eq]
  cases s with
  | nil => exact ⟨nofun, nofun⟩
  | cons y s =>
    rw [List.isPrefixOf_cons_cons, Bool.and_eq_true, beq_iff_eq, List.head?_cons, Option.some.injEq]
    exact ⟨fun ⟨hx, hy, _⟩ => ⟨hx.symm, hy.symm⟩, fun ⟨hx, hy⟩ => ⟨hx.symm, hy.symm, rfl⟩⟩

theorem find_pair_eq_none_iff {a b : α} {s : List α} : find [a, b] s = none ↔ NoPair a b s := by
  induction s with
  | nil => exact ⟨fun _ => .nil, fun _ => rfl⟩
  | cons x s ih =>
    rw [find, NoPair, List.isChain_cons]
    split
    · next h =>
      obtain ⟨hx, hb⟩ := isPrefixOf_pair_iff.mp h
      exact ⟨nofun, fun hs => absurd ⟨hx, rfl⟩ (hs.1 b hb)⟩
    · next h =>
      rw [Option.map_eq_none_iff, ih]
      refine ⟨fun hs => ⟨?_, hs⟩, fun hs => hs.2⟩
      rintro y hy ⟨hx, rfl⟩
      exact h (isPrefixOf_pair_iff.mpr ⟨hx, hy⟩)

theorem find_pair_eq_some {a b : α} {s : List α} {i : Nat} (h : find [a, b] s = some i) :
    ∃ pre post, s = pre ++ a :: b :: post ∧ pre.length = i ∧ NoPair a b (pre ++ [a]) := by
  induction s generalizing i with
  | nil => cases h
  | cons x s ih =>
    rw [find] at h
    split at h
    · next hx =>
      obtain ⟨rfl, hb⟩ := isPrefixOf_pair_iff.mp hx
      obtain ⟨post, rfl⟩ := List.head?_eq_some_iff.mp hb
      cases h
      exact ⟨[], post, rfl, rfl, .singleton _⟩
    · next hx =>
      obtain ⟨i, hi, rfl⟩ := Option.map_eq_some_iff.mp h
      obtain ⟨pre, post, rfl, hlen, hpre⟩ := ih hi
      refine ⟨x :: pre, post, rfl, congrArg (· + 1) hlen, List.isChain_cons.mpr ⟨?_, hpre⟩⟩
      rintro y hy ⟨hxa, rfl⟩
      refine hx (isPrefixOf_pair_iff.mpr ⟨hxa, ?_⟩)
      cases pre <;> exact hy

theorem find_pair_append {a b : α} {pre : List α} (post : List α) (h : NoPair a b (pre ++ [a])) :
    find [a, b] (pre ++ a :: b :: post) = some pre.length := by
  induction pre with
  | nil => exact if_pos (isPrefixOf_pair_iff.mpr ⟨rfl, rfl⟩)
  | cons x pre ih =>
    obtain ⟨hx, hpre⟩ := List.isChain_cons.mp h
    rw [List.cons_append, find, if_neg, ih hpre]
    · rfl
    · rw [isPrefixOf_pair_iff]
      rintro ⟨hxa, hb⟩
      refine hx b ?_ ⟨hxa, rfl⟩
      cases pre <;> exact hb

/-! ## A letter between the two of a pair -/

section Pair

variable {a b c : α}

theorem replaceFrom_pair {fuel : Nat} {s pre post : List α} (hs : s = pre ++ a :: b :: post)
    (hi : find [a, b] s = some pre.length) :
    replaceFrom [a, b] [a, c, b] (fuel + 1) s = pre ++ a :: c :: b :: replaceFrom [a, b] [a, c, b] fuel post := by
  rw [replaceFrom, hi, hs]
  simp

theorem noPair_replaceFrom (hab : a ≠ b) (hca : c ≠ a) (hcb : c ≠ b) {fuel : Nat} {s : List α}
    (hfuel : s.length ≤ fuel) : NoPair a b (replaceFrom [a, b] [a, c, b] fuel s) := by
  induction fuel generalizing s with
  | zero =>
    rw [List.eq_nil_of_length_eq_zero (Nat.le_zero.mp hfuel)]
    exact .nil
  | succ fuel ih =>
    cases hi : find [a, b] s with
    | none =>
      rw [replaceFrom, hi]
      exact find_pair_eq_none_iff.mp hi
    | some i =>
      obtain ⟨pre, post, hs, rfl, hpre⟩ := find_pair_eq_some hi
      rw [replaceFrom_pair hs hi]
      have hpost : post.length ≤ fuel := by
        rw [hs] at hfuel
        simp only [List.length_append, List.length_cons] at hfuel
        omega
      refine List.isChain_append_cons_cons.mpr ⟨hpre, fun h => hcb h.2, List.isChain_cons_cons.mpr ⟨fun h => hca h.1, ?_⟩⟩
      refine List.isChain_cons.mpr ⟨?_, ih hpost⟩
      rintro y - ⟨hb, -⟩
      exact hab hb.symm

/-- **The pair is gone.** -/
theorem noPair_replace (hab : a ≠ b) (hca : c ≠ a) (hcb : c ≠ b) (s : List α) :
    NoPair a b (replace [a, b] [a, c, b] s) := noPair_replaceFrom hab hca hcb le_rfl

theorem head?_replaceFrom (fuel : Nat) (s : List α) :
    (replaceFrom [a, b] [a, c, b] fuel s).head? = s.head? := by
  cases fuel with
  | zero => rfl
  | succ fuel =>
    cases hi : find [a, b] s with
    | none => rw [replaceFrom, hi]
    | some i =>
      obtain ⟨pre, post, hs, rfl, -⟩ := find_pair_eq_some hi
      rw [replaceFrom_pair hs hi, hs]
      cases pre <;> rfl

theorem noPair_replaceFrom_of_noPair {p q : α} (hcp : c ≠ p) (hcq : c ≠ q) (fuel : Nat) {s : List α}
    (h : NoPair p q s) : NoPair p q (replaceFrom [a, b] [a, c, b] fuel s) := by
  induction fuel generalizing s with
  | zero => exact h
  | succ fuel ih =>
    cases hi : find [a, b] s with
    | none =>
      rw [replaceFrom, hi]
      exact h
    | some i =>
      obtain ⟨pre, post, hs, rfl, -⟩ := find_pair_eq_some hi
      rw [replaceFrom_pair hs hi]
      rw [hs] at h
      obtain ⟨hpre, -, hpost⟩ := List.isChain_append_cons_cons.mp h
      obtain ⟨hhead, hpost⟩ := List.isChain_cons.mp hpost
      refine List.isChain_append_cons_cons.mpr ⟨hpre, fun h => hcq h.2,
        List.isChain_cons_cons.mpr ⟨fun h => hcp h.1, List.isChain_cons.mpr ⟨?_, ih hpost⟩⟩⟩
      rw [head?_replaceFrom]
      exact hhead

/-- **No other pair comes in.** -/
theorem noPair_replace_of_noPair {p q : α} (hcp : c ≠ p) (hcq : c ≠ q) {s : List α} (h : NoPair p q s) :
    NoPair p q (replace [a, b] [a, c, b] s) := noPair_replaceFrom_of_noPair hcp hcq _ h

end Pair

end Replace
