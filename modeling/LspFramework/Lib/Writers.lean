import Mathlib.Logic.Relation
import Mathlib.Logic.Function.Basic
import Mathlib.Data.List.Basic

/-!
# Threads that write under a lock

Every thread has a queue of items.  To write one it takes the lock, chooses a content for the item,
writes the encoded content in any number of pieces, and gives the lock back; the steps of the
threads are interleaved in any order.  The log records the order in which the lock was taken.

`Inv`, kept by every step, says that the output is the log encoded up to what the holder of the
lock has still to write, and that each thread finds its items in the log in their order:

    Reachable … s → Inv … s                                          (reachable_inv)
-/

namespace Writers

section Writers

variable {τ α π β : Type}

structure State (τ α π β : Type) where
  output : List β
  /-- The thread in the critical section and what it has still to write. -/
  holder : Option (τ × List β)
  waiting : τ → List α
  log : List (τ × α × π)

def State.pending (s : State τ α π β) : List β :=
  match s.holder with
  | none => []
  | some (_, rest) => rest

def init (items : τ → List α) : State τ α π β := ⟨[], none, items, []⟩

variable [DecidableEq τ] (emits : α → π → Prop) (encode : π → List β)

inductive Step : State τ α π β → State τ α π β → Prop
  | lock {s : State τ α π β} {t : τ} {a : α} {as : List α} {c : π} : s.holder = none →
      s.waiting t = a :: as → emits a c →
      Step s ⟨s.output, some (t, encode c), Function.update s.waiting t as, s.log ++ [(t, a, c)]⟩
  | write {s : State τ α π β} {t : τ} {chunk rest : List β} : s.holder = some (t, chunk ++ rest) →
      Step s ⟨s.output ++ chunk, some (t, rest), s.waiting, s.log⟩
  | unlock {s : State τ α π β} {t : τ} : s.holder = some (t, []) →
      Step s ⟨s.output, none, s.waiting, s.log⟩

def Reachable (items : τ → List α) : State τ α π β → Prop :=
  Relation.ReflTransGen (Step emits encode) (init items)

/-- The items of one thread in a log. -/
def itemsOf (t : τ) (log : List (τ × α × π)) : List α := (log.filter fun e => e.1 = t).map fun e => e.2.1

structure Inv (items : τ → List α) (s : State τ α π β) : Prop where
  output : s.output ++ s.pending = s.log.flatMap fun e => encode e.2.2
  order : ∀ t, itemsOf t s.log ++ s.waiting t = items t
  emitted : ∀ e ∈ s.log, emits e.2.1 e.2.2

variable {emits encode}

/-- A thread takes the free lock, writes its next item in one piece, and gives the lock back. -/
theorem Reachable.turn {items : τ → List α} {s : State τ α π β} (h : Reachable emits encode items s)
    (hfree : s.holder = none) {t : τ} {a : α} {as : List α} {c : π} (hwait : s.waiting t = a :: as)
    (hemits : emits a c) :
    Reachable emits encode items
      ⟨s.output ++ encode c, none, Function.update s.waiting t as, s.log ++ [(t, a, c)]⟩ := by
  have hlock := h.tail (.lock hfree hwait hemits)
  rw [← List.append_nil (encode c)] at hlock
  have hwrite := hlock.tail (.write rfl)
  rw [List.append_nil (encode c)] at hwrite
  exact hwrite.tail (.unlock rfl)

theorem inv_init (items : τ → List α) : Inv emits encode items (init items) :=
  ⟨rfl, fun _ => rfl, by simp [init]⟩

theorem inv_step {items : τ → List α} {s s' : State τ α π β} (h : Step emits encode s s')
    (hs : Inv emits encode items s) : Inv emits encode items s' := by
  obtain ⟨hout, hord, hem⟩ := hs
  cases h with
  | @lock t a as c hfree hwait hemits =>
    refine ⟨?_, fun u => ?_, fun e he => ?_⟩
    · have hpend : s.pending = [] := by rw [State.pending, hfree]
      rw [hpend, List.append_nil] at hout
      simp [State.pending, hout]
    · by_cases hu : u = t
      · subst hu
        have := hord u
        rw [hwait] at this
        simp [itemsOf, ← this]
      · simp [itemsOf, Ne.symm hu, Function.update_of_ne hu, ← hord u]
    · rcases List.mem_append.mp he with he | he
      · exact hem e he
      · rw [List.mem_singleton.mp he]
        exact hemits
  | @write t chunk rest hhold =>
    refine ⟨?_, hord, hem⟩
    rw [State.pending, hhold] at hout
    rw [← hout]
    simp [State.pending]
  | @unlock t hhold =>
    refine ⟨?_, hord, hem⟩
    rw [State.pending, hhold] at hout
    exact hout

/-- **What every run of the threads keeps.** -/
theorem reachable_inv {items : τ → List α} {s : State τ α π β} (h : Reachable emits encode items s) :
    Inv emits encode items s := by
  induction h with
  | refl => exact inv_init items
  | tail _ hstep ih => exact inv_step hstep ih

end Writers

end Writers
