import Mathlib.Data.List.Nodup
import Mathlib.Logic.Relation

/-!
# Lists collected over parents

Every node of a graph has parents and a list of its own.  `collect own depth a` puts the lists of the
parents of `a` before its own one, as a function that first calls those of the parents does; a node that
is reached on two ways is collected twice.

    Bounded depth a → (k ∈ collect own depth a ↔ Has own a k)                     (mem_collect)
    Bounded depth a → ((collect own depth a).Nodup ↔ every node above is Apart)   (nodup_collect)

A member is looked up in the node itself, and where it is not there in all parents: when no two parents have
it, the lookup finds one member exactly where there is one                        (lookup_unique).

`Bounded depth a` says that the depth reaches to the end of every chain of parents.
-/

namespace Inheritance

variable {α κ : Type} (parents : α → List α)

/-- `a` itself, its parents, their parents and so on. -/
def Reaches : α → α → Prop := Relation.ReflTransGen fun a b => b ∈ parents a

/-- Every chain of parents ends within the depth. -/
def Bounded : Nat → α → Prop
  | 0, _ => False
  | depth + 1, a => ∀ b ∈ parents a, Bounded depth b

def collect (own : α → List κ) : Nat → α → List κ
  | 0, _ => []
  | depth + 1, a => (parents a).flatMap (collect own depth) ++ own a

/-- The node or one above it has `k` of its own. -/
def Has (own : α → List κ) (a : α) (k : κ) : Prop := ∃ b, Reaches parents a b ∧ k ∈ own b

/-- Nothing comes twice to the node: from itself, from two parents, or from itself and a parent. -/
structure Apart (own : α → List κ) (a : α) : Prop where
  own_nodup : (own a).Nodup
  parents_apart : (parents a).Pairwise fun b c => ∀ k, Has parents own b k → ¬ Has parents own c k
  own_apart : ∀ k ∈ own a, ∀ b ∈ parents a, ¬ Has parents own b k

variable {parents}

theorem reaches_iff {a c : α} : Reaches parents a c ↔ a = c ∨ ∃ b ∈ parents a, Reaches parents b c :=
  Relation.ReflTransGen.cases_head_iff

theorem Reaches.parent {a b : α} (h : b ∈ parents a) : Reaches parents a b := .single h

theorem has_iff {own : α → List κ} {a : α} {k : κ} :
    Has parents own a k ↔ k ∈ own a ∨ ∃ b ∈ parents a, Has parents own b k := by
  constructor
  · rintro ⟨c, hc, hk⟩
    obtain rfl | ⟨b, hb, hbc⟩ := reaches_iff.mp hc
    · exact .inl hk
    · exact .inr ⟨b, hb, c, hbc, hk⟩
  · rintro (hk | ⟨b, hb, c, hbc, hk⟩)
    · exact ⟨a, .refl, hk⟩
    · exact ⟨c, reaches_iff.mpr (.inr ⟨b, hb, hbc⟩), hk⟩

/-- What holds of the node and of all above its parents holds of all above it. -/
theorem forall_reaches_iff {a : α} {p : α → Prop} :
    (∀ c, Reaches parents a c → p c) ↔ p a ∧ ∀ b ∈ parents a, ∀ c, Reaches parents b c → p c := by
  constructor
  · exact fun h => ⟨h a .refl, fun b hb c hbc => h c (reaches_iff.mpr (.inr ⟨b, hb, hbc⟩))⟩
  · rintro ⟨ha, hparents⟩ c hc
    obtain rfl | ⟨b, hb, hbc⟩ := reaches_iff.mp hc
    · exact ha
    · exact hparents b hb c hbc

/-- A rank that falls towards the parents bounds the chains. -/
theorem Bounded.of_rank (rank : α → Nat) {p : α → Prop}
    (h : ∀ a, p a → ∀ b ∈ parents a, p b ∧ rank b < rank a) {depth : Nat} {a : α} (ha : p a)
    (hdepth : rank a < depth) : Bounded parents depth a := by
  induction depth generalizing a with
  | zero => omega
  | succ depth ih =>
    intro b hb
    obtain ⟨hpb, hlt⟩ := h a ha b hb
    exact ih hpb (by omega)

theorem Bounded.reaches {depth : Nat} {a c : α} (h : Bounded parents depth a) (hc : Reaches parents a c) :
    ∃ depth', Bounded parents depth' c := by
  induction depth generalizing a with
  | zero => exact h.elim
  | succ depth ih =>
    obtain rfl | ⟨b, hb, hbc⟩ := reaches_iff.mp hc
    · exact ⟨depth + 1, h⟩
    · exact ih (h b hb) hbc

theorem mem_collect {own : α → List κ} {depth : Nat} {a : α} (h : Bounded parents depth a) {k : κ} :
    k ∈ collect parents own depth a ↔ Has parents own a k := by
  induction depth generalizing a with
  | zero => exact h.elim
  | succ depth ih =>
    rw [collect, List.mem_append, List.mem_flatMap, has_iff, or_comm]
    exact or_congr_right (exists_congr fun b => and_congr_right fun hb => ih (h b hb))

/-- **Nothing is collected twice exactly when every node above is apart.** -/
theorem nodup_collect {own : α → List κ} {depth : Nat} {a : α} (h : Bounded parents depth a) :
    (collect parents own depth a).Nodup ↔ ∀ c, Reaches parents a c → Apart parents own c := by
  induction depth generalizing a with
  | zero => exact h.elim
  | succ depth ih =>
    have hmem : ∀ b ∈ parents a, ∀ k, k ∈ collect parents own depth b ↔ Has parents own b k :=
      fun b hb k => mem_collect (h b hb)
    rw [collect, List.nodup_append, List.nodup_flatMap, forall_reaches_iff]
    have hpair : (parents a).Pairwise (Function.onFun List.Disjoint (collect parents own depth)) ↔
        (parents a).Pairwise fun b c => ∀ k, Has parents own b k → ¬ Has parents own c k := by
      refine List.Pairwise.iff_of_mem fun {b c} hb hc => ?_
      refine forall_congr' fun k => ?_
      rw [hmem b hb, hmem c hc]
    have hapart : (∀ x ∈ (parents a).flatMap (collect parents own depth), ∀ y ∈ own a, x ≠ y) ↔
        ∀ k ∈ own a, ∀ b ∈ parents a, ¬ Has parents own b k := by
      constructor
      · exact fun hne k hk b hb hhas => hne k (List.mem_flatMap.mpr ⟨b, hb, (hmem b hb k).mpr hhas⟩) k hk rfl
      · rintro hne x hx y hy rfl
        obtain ⟨b, hb, hxb⟩ := List.mem_flatMap.mp hx
        exact hne x hy b hb ((hmem b hb x).mp hxb)
    rw [hpair, hapart, forall₂_congr fun b hb => ih (h b hb)]
    constructor
    · exact fun ⟨⟨hparents, hbases⟩, hown, hne⟩ => ⟨⟨hown, hbases, hne⟩, hparents⟩
    · exact fun ⟨ha, hparents⟩ => ⟨⟨hparents, ha.parents_apart⟩, ha.own_nodup, ha.own_apart⟩

theorem collect_sublist (parents : α → List α) {own own' : α → List κ}
    (h : ∀ a, (own a).Sublist (own' a)) (depth : Nat) (a : α) :
    (collect parents own depth a).Sublist (collect parents own' depth a) := by
  induction depth generalizing a with
  | zero => exact .refl _
  | succ depth ih =>
    refine List.Sublist.append ?_ (h a)
    generalize parents a = l
    induction l with
    | nil => exact .refl _
    | cons b l ihl => exact (ih b).append ihl

theorem flatMap_of_pairwise {β : Type} {P : α → Prop} {f : α → List β} {l : List α}
    (h : l.Pairwise fun a b => P a → ¬ P b) (hf : ∀ a ∈ l, ¬ P a → f a = []) {a : α} (ha : a ∈ l) (hpa : P a) :
    l.flatMap f = f a := by
  induction l with
  | nil => cases ha
  | cons b l ih =>
    obtain ⟨hb, hl⟩ := List.pairwise_cons.mp h
    obtain ⟨hfb, hfl⟩ := List.forall_mem_cons.mp hf
    rw [List.flatMap_cons]
    rcases List.mem_cons.mp ha with rfl | hmem
    · have hrest : l.flatMap f = [] := List.flatMap_eq_nil_iff.mpr fun c hc => hfl c hc (hb c hc hpa)
      rw [hrest, List.append_nil]
    · rw [hfb fun hpb => hb a hmem hpb hpa, List.nil_append]
      exact ih hl hfl hmem

section Lookup

variable {β : Type} {own : α → List κ} {k : κ} {p : α → Prop} {f : Nat → α → List β}

/-- **A lookup is unique** where no two parents have the member. -/
theorem lookup_unique (hp : ∀ a, p a → ∀ b ∈ parents a, p b)
    (hapart : ∀ a, p a → (parents a).Pairwise fun b c => Has parents own b k → ¬ Has parents own c k)
    (hown : ∀ depth a, p a → k ∈ own a → ∃ x, f (depth + 1) a = [x])
    (hparents : ∀ depth a, p a → k ∉ own a → f (depth + 1) a = (parents a).flatMap (f depth)) {depth : Nat} {a : α}
    (h : Bounded parents depth a) (ha : p a) :
    (Has parents own a k → ∃ x, f depth a = [x]) ∧ (¬ Has parents own a k → f depth a = []) := by
  induction depth generalizing a with
  | zero => exact h.elim
  | succ depth ih =>
    have hbase : ∀ b ∈ parents a, (Has parents own b k → ∃ x, f depth b = [x]) ∧
        (¬ Has parents own b k → f depth b = []) := fun b hb => ih (h b hb) (hp a ha b hb)
    by_cases hk : k ∈ own a
    · exact ⟨fun _ => hown depth a ha hk, fun hnot => absurd (has_iff.mpr (.inl hk)) hnot⟩
    · rw [hparents depth a ha hk]
      constructor
      · intro hhas
        obtain ⟨b, hb, hhasb⟩ := (has_iff.mp hhas).resolve_left hk
        rw [flatMap_of_pairwise (hapart a ha) (fun c hc => (hbase c hc).2) hb hhasb]
        exact (hbase b hb).1 hhasb
      · intro hnot
        refine List.flatMap_eq_nil_iff.mpr fun b hb => (hbase b hb).2 fun hhasb => ?_
        exact hnot (has_iff.mpr (.inr ⟨b, hb, hhasb⟩))

end Lookup

end Inheritance
