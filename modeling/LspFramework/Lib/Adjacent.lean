import Mathlib.Data.List.Chain
import LspFramework.Lib.Loop

/-!
# Merging neighbours in place

A loop over a vector that merges an element into the one before it where the two have one key, erases it and
looks at the next one at the same place.

* `Merging`: when two elements are merged, and into what.
* `turn M`: a round of the loop; it starts at the second element.
* `collapse M d rest`: what the loop makes of an element and those behind it.
* `Merges M s first second`: from `s` on the loop merges the two.

What is merged is alike exactly where neighbours with one key are, and then nothing is lost:

    Ends (turn M) (start items) (collapsed M items)                                        (ends_collapsed)
    (∀ first second, Merges … → Same first second) ↔ items.IsChain …                            (merges_iff)
    x ∈ items → ∃ r ∈ collapsed M items, Covers r x                                         (covers_collapsed)
-/

namespace Adjacent

open Loop

structure Merging (α κ : Type) where
  key : α → κ
  mergeable : α → α → Bool
  merge : α → α → α
  mergeable_iff : ∀ a b, mergeable a b = true ↔ key a = key b
  key_merge : ∀ a b, key a = key b → key (merge a b) = key a

structure State (α : Type) where
  items : List α
  index : Nat

section Loop

variable {α κ : Type} (M : Merging α κ)

def start (items : List α) : State α := ⟨items, 1⟩

def turn (s : State α) : Turn (State α) (List α) :=
  match s.items[s.index - 1]?, s.items[s.index]? with
  | some first, some second =>
    if M.mergeable first second = true then
      .next ⟨(s.items.set (s.index - 1) (M.merge first second)).eraseIdx s.index, s.index - 1 + 1⟩
    else .next { s with index := s.index + 1 }
  | _, _ => .done s.items

def collapse (d : α) : List α → List α
  | [] => [d]
  | b :: rest => if M.mergeable d b = true then collapse (M.merge d b) rest else d :: collapse b rest

def collapsed : List α → List α
  | [] => []
  | d :: rest => collapse M d rest

/-- The loop looks at the two and merges them. -/
def MergesNow (s : State α) (first second : α) : Prop :=
  s.items[s.index - 1]? = some first ∧ s.items[s.index]? = some second ∧ M.mergeable first second = true

def Merges (s : State α) (first second : α) : Prop :=
  ∃ s', Reaches (turn M) s s' ∧ MergesNow M s' first second

/-! ## One round -/

/-- The loop is at the element behind `d`. -/
def place (done : List α) (d : α) (rest : List α) : State α := ⟨done ++ d :: rest, done.length + 1⟩

variable {M} {done rest : List α} {d b : α}

theorem first_place : (place done d rest).items[(place done d rest).index - 1]? = some d := by
  simp [place]

theorem second_place : (place done d rest).items[(place done d rest).index]? = rest.head? := by
  cases rest <;> simp [place]

theorem turn_last : turn M (place done d []) = .done (done ++ [d]) := by
  rw [turn, first_place, second_place]
  rfl

theorem turn_merge (h : M.mergeable d b = true) :
    turn M (place done d (b :: rest)) = .next (place done (M.merge d b) rest) := by
  have hset : (done ++ d :: b :: rest).set done.length (M.merge d b) = done ++ M.merge d b :: b :: rest := by
    simp
  have herase : (done ++ M.merge d b :: b :: rest).eraseIdx (done.length + 1) = done ++ M.merge d b :: rest := by
    rw [List.eraseIdx_append_of_length_le (Nat.le_add_right _ 1), Nat.add_sub_cancel_left]
    rfl
  rw [turn, first_place, second_place]
  simp only [List.head?_cons, h, if_true]
  show Turn.next (State.mk (((done ++ d :: b :: rest).set done.length (M.merge d b)).eraseIdx (done.length + 1))
    (done.length + 1)) = _
  rw [hset, herase, place]

theorem turn_keep (h : ¬ M.mergeable d b = true) :
    turn M (place done d (b :: rest)) = .next (place (done ++ [d]) b rest) := by
  rw [turn, first_place, second_place]
  simp only [List.head?_cons, h]
  simp [place]

theorem mergesNow_iff {first second : α} :
    MergesNow M (place done d rest) first second ↔
      d = first ∧ rest.head? = some second ∧ M.mergeable first second = true := by
  rw [MergesNow, first_place, second_place, Option.some.injEq]

/-- A merge is made at the loop head or later. -/
theorem merges_next {s s' : State α} (h : turn M s = .next s') (first second : α) :
    Merges M s first second ↔ MergesNow M s first second ∨ Merges M s' first second := by
  constructor
  · rintro ⟨t, hreach, hnow⟩
    rcases Relation.ReflTransGen.cases_head hreach with rfl | ⟨u, hturn, hrest⟩
    · exact .inl hnow
    · obtain rfl := Turn.next.inj (h.symm.trans hturn)
      exact .inr ⟨t, hrest, hnow⟩
  · rintro (hnow | ⟨t, hreach, hnow⟩)
    · exact ⟨s, .refl _, hnow⟩
    · exact ⟨t, .head h hreach, hnow⟩

theorem not_merges_last (first second : α) : ¬ Merges M (place done d []) first second := by
  rintro ⟨t, hreach, hnow⟩
  rcases Relation.ReflTransGen.cases_head hreach with rfl | ⟨u, hturn, -⟩
  · obtain ⟨-, hnone, -⟩ := mergesNow_iff.mp hnow
    cases hnone
  · cases turn_last.symm.trans hturn

/-! ## Whole runs -/

theorem ends_collapse (done : List α) (d : α) (rest : List α) :
    Ends (turn M) (place done d rest) (done ++ collapse M d rest) := by
  induction rest generalizing done d with
  | nil => exact ends_done turn_last
  | cons b rest ih =>
    rw [collapse]
    split
    · next h => exact (ends_next (turn_merge h) _).mpr (ih done (M.merge d b))
    · next h =>
      refine (ends_next (turn_keep h) _).mpr ?_
      have := ih (done ++ [d]) b
      rwa [List.append_assoc, List.singleton_append] at this

/-- **The loop ends**, with the runs of neighbours with one key merged. -/
theorem ends_collapsed (items : List α) : Ends (turn M) (start items) (collapsed M items) := by
  cases items with
  | nil => exact ends_done rfl
  | cons d rest => exact ends_collapse [] d rest

section Same

variable {Same : α → α → Prop} (hequiv : Equivalence Same) (hmerge : ∀ a b, M.key a = M.key b → Same (M.merge a b) a)
include hequiv hmerge

/-- `a` is the element before `rest`, and was merged into `d` or is `d`. -/
theorem merges_place_iff {a : α} (hkey : M.key d = M.key a) (hsame : Same d a) :
    (∀ first second, Merges M (place done d rest) first second → Same first second) ↔
      (a :: rest).IsChain fun a b => M.key a = M.key b → Same a b := by
  induction rest generalizing done d a with
  | nil => exact iff_of_true (fun _ _ h => absurd h (not_merges_last _ _)) (.singleton _)
  | cons b rest ih =>
    have hnow : ∀ first second, MergesNow M (place done d (b :: rest)) first second ↔
        d = first ∧ b = second ∧ M.mergeable first second = true := by
      intro first second
      rw [mergesNow_iff, List.head?_cons, Option.some.injEq]
    rw [List.isChain_cons_cons]
    by_cases h : M.mergeable d b = true
    · have hdb := (M.mergeable_iff d b).mp h
      have hmerged : Same (M.merge d b) d := hmerge d b hdb
      have hnext : Same d b → ((∀ first second, Merges M (place done (M.merge d b) rest) first second →
          Same first second) ↔ (b :: rest).IsChain fun a b => M.key a = M.key b → Same a b) :=
        fun hdb' => ih ((M.key_merge d b hdb).trans hdb) (hequiv.trans hmerged hdb')
      simp only [merges_next (turn_merge h), hnow]
      constructor
      · intro hall
        have hdb' : Same d b := hall d b (.inl ⟨rfl, rfl, h⟩)
        exact ⟨fun _ => hequiv.trans (hequiv.symm hsame) hdb', (hnext hdb').mp fun _ _ hm => hall _ _ (.inr hm)⟩
      · rintro ⟨hab, hrest⟩ first second (⟨rfl, rfl, -⟩ | hm)
        · exact hequiv.trans hsame (hab (hkey.symm.trans hdb))
        · have hdb' : Same d b := hequiv.trans hsame (hab (hkey.symm.trans hdb))
          exact (hnext hdb').mpr hrest first second hm
    · have hne : M.key a ≠ M.key b := fun heq => h ((M.mergeable_iff d b).mpr (hkey.trans heq))
      have hnext : (∀ first second, Merges M (place (done ++ [d]) b rest) first second → Same first second) ↔
          (b :: rest).IsChain fun a b => M.key a = M.key b → Same a b := ih rfl (hequiv.refl b)
      simp only [merges_next (turn_keep h), hnow]
      constructor
      · exact fun hall => ⟨fun heq => absurd heq hne, hnext.mp fun _ _ hm => hall _ _ (.inr hm)⟩
      · rintro ⟨-, hrest⟩ first second (⟨rfl, rfl, hm⟩ | hm)
        · exact absurd hm h
        · exact hnext.mpr hrest first second hm

/-- **When only like elements are merged**: where neighbours with one key are alike. -/
theorem merges_iff (items : List α) :
    (∀ first second, Merges M (start items) first second → Same first second) ↔
      items.IsChain fun a b => M.key a = M.key b → Same a b := by
  cases items with
  | nil =>
    refine iff_of_true ?_ .nil
    rintro first second ⟨t, hreach, hnow⟩
    rcases Relation.ReflTransGen.cases_head hreach with rfl | ⟨u, hturn, -⟩
    · cases hnow.1
    · cases hturn
  | cons d rest =>
    have hplace : start (d :: rest) = place [] d rest := rfl
    rw [hplace]
    exact merges_place_iff hequiv hmerge rfl (hequiv.refl d)

/-- An element that covers both of two like ones with one key covers all it was merged from. -/
theorem covers_collapse {Covers : α → α → Prop} (hrefl : ∀ a, Covers a a)
    (htrans : ∀ a b c, Covers a b → Covers b c → Covers a c)
    (hcovers : ∀ a b, M.key a = M.key b → Same a b → Covers (M.merge a b) a ∧ Covers (M.merge a b) b)
    {a : α} (hkey : M.key d = M.key a) (hsame : Same d a)
    (hchain : (a :: rest).IsChain fun a b => M.key a = M.key b → Same a b) :
    (∃ r ∈ collapse M d rest, Covers r d) ∧ ∀ x ∈ rest, ∃ r ∈ collapse M d rest, Covers r x := by
  induction rest generalizing d a with
  | nil => exact ⟨⟨d, List.mem_singleton_self d, hrefl d⟩, nofun⟩
  | cons b rest ih =>
    obtain ⟨hab, hrest⟩ := List.isChain_cons_cons.mp hchain
    rw [collapse]
    split
    · next h =>
      have hdb := (M.mergeable_iff d b).mp h
      have hdb' : Same d b := hequiv.trans hsame (hab (hkey.symm.trans hdb))
      have hmerged : Same (M.merge d b) b := hequiv.trans (hmerge d b hdb) hdb'
      obtain ⟨⟨r, hr, hcover⟩, hothers⟩ := ih ((M.key_merge d b hdb).trans hdb) hmerged hrest
      obtain ⟨hd, hb⟩ := hcovers d b hdb hdb'
      refine ⟨⟨r, hr, htrans _ _ _ hcover hd⟩, ?_⟩
      intro x hx
      rcases List.mem_cons.mp hx with rfl | hx
      · exact ⟨r, hr, htrans _ _ _ hcover hb⟩
      · exact hothers x hx
    · obtain ⟨⟨r, hr, hcover⟩, hothers⟩ := ih (d := b) rfl (hequiv.refl b) hrest
      refine ⟨⟨d, List.mem_cons_self, hrefl d⟩, ?_⟩
      intro x hx
      rcases List.mem_cons.mp hx with rfl | hx
      · exact ⟨r, List.mem_cons_of_mem _ hr, hcover⟩
      · obtain ⟨r', hr', hcover'⟩ := hothers x hx
        exact ⟨r', List.mem_cons_of_mem _ hr', hcover'⟩

/-- **Then nothing is lost.** -/
theorem covers_collapsed {Covers : α → α → Prop} (hrefl : ∀ a, Covers a a)
    (htrans : ∀ a b c, Covers a b → Covers b c → Covers a c)
    (hcovers : ∀ a b, M.key a = M.key b → Same a b → Covers (M.merge a b) a ∧ Covers (M.merge a b) b)
    {items : List α} (hchain : items.IsChain fun a b => M.key a = M.key b → Same a b) :
    ∀ x ∈ items, ∃ r ∈ collapsed M items, Covers r x := by
  cases items with
  | nil => exact nofun
  | cons d rest =>
    obtain ⟨hd, hrest⟩ := covers_collapse hequiv hmerge hrefl htrans hcovers rfl (hequiv.refl d) hchain
    intro x hx
    rcases List.mem_cons.mp hx with rfl | hx
    · exact hd
    · exact hrest x hx

end Same

end Loop

end Adjacent
