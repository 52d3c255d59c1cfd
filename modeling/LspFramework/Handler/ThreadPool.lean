import Mathlib.Data.List.Perm.Basic

/-!
# The thread pool

The queue of `ThreadPool` and its worker threads: `addTask` queues a task and starts a thread when
there is none, or when tasks wait and fewer than `m_maxThreads` run; a free thread takes the first
task of the queue; the tasks taken finish in any order.  No task is lost or run twice, and a queued
task never waits without a thread:

    tasks of addTask task pool ~ task :: tasks of pool    (addTask_tasks, take_tasks, finish_tasks)
    pool.tasks ≠ [] → a thread takes a task or finishes one                        (take_or_finish)
-/

namespace Lsp

structure ThreadPool (α : Type) where
  m_maxThreads : Nat
  /-- `m_threads.size()` -/
  threads : Nat
  m_taskQueue : List α
  /-- tasks that threads have taken and not finished -/
  running : List α
  busy : running.length ≤ threads
  served : m_taskQueue ≠ [] → 0 < threads

namespace ThreadPool

section ThreadPool

variable {α : Type}

def create (initialThreads maxThreads : Nat) : ThreadPool α where
  m_maxThreads := max maxThreads 1
  threads := initialThreads
  m_taskQueue := []
  running := []
  busy := Nat.zero_le _
  served h := absurd rfl h

def addTask (task : α) (pool : ThreadPool α) : ThreadPool α :=
  let m_taskQueue := pool.m_taskQueue ++ [task]
  { pool with
    m_taskQueue
    threads :=
      if m_taskQueue.length > 1 ∧ pool.threads < pool.m_maxThreads ∨ pool.threads = 0 then
        pool.threads + 1
      else pool.threads
    busy := by
      have := pool.busy
      split <;> omega
    served := by
      intro _
      split <;> omega }

/-- A free thread pops the first task. -/
def take (pool : ThreadPool α) : Option (ThreadPool α) :=
  match hqueue : pool.m_taskQueue with
  | [] => none
  | task :: rest =>
    if hfree : pool.running.length < pool.threads then
      some { pool with
        m_taskQueue := rest
        running := pool.running ++ [task]
        busy := by
          rw [List.length_append]
          exact hfree
        served := fun _ => pool.served (by simp [hqueue]) }
    else none

/-- The task at a place finishes. -/
def finish (i : Nat) (pool : ThreadPool α) : Option (α × ThreadPool α) :=
  pool.running[i]?.map fun task =>
    (task, { pool with
      running := pool.running.eraseIdx i
      busy := Nat.le_trans (List.length_eraseIdx_le _ _) pool.busy })

theorem take_cons {pool : ThreadPool α} {task : α} {rest : List α} (hqueue : pool.m_taskQueue = task :: rest)
    (hfree : pool.running.length < pool.threads) :
    ∃ pool', pool.take = some pool' ∧ pool'.m_maxThreads = pool.m_maxThreads ∧
      pool'.threads = pool.threads ∧ pool'.m_taskQueue = rest ∧ pool'.running = pool.running ++ [task] := by
  unfold take
  split
  · next hnil =>
    rw [hqueue] at hnil
    cases hnil
  · next task' rest' hcons =>
    obtain ⟨rfl, rfl⟩ := List.cons.inj (hqueue.symm.trans hcons)
    exact ⟨_, dif_pos hfree, rfl, rfl, rfl, rfl⟩

theorem finish_of_lt {pool : ThreadPool α} {i : Nat} (hi : i < pool.running.length) :
    ∃ pool', pool.finish i = some (pool.running[i], pool') ∧ pool'.m_maxThreads = pool.m_maxThreads ∧
      pool'.threads = pool.threads ∧ pool'.m_taskQueue = pool.m_taskQueue ∧
      pool'.running = pool.running.eraseIdx i := by
  unfold finish
  rw [List.getElem?_eq_getElem hi]
  exact ⟨_, rfl, rfl, rfl, rfl, rfl⟩

/-- The tasks that are queued or run. -/
def tasks (pool : ThreadPool α) : List α := pool.m_taskQueue ++ pool.running

theorem addTask_tasks (task : α) (pool : ThreadPool α) :
    (pool.addTask task).tasks.Perm (task :: pool.tasks) := by
  show ((pool.m_taskQueue ++ [task]) ++ pool.running).Perm (task :: (pool.m_taskQueue ++ pool.running))
  rw [List.append_assoc]
  exact List.perm_middle

theorem take_tasks {pool pool' : ThreadPool α} (h : pool.take = some pool') :
    pool'.tasks.Perm pool.tasks := by
  unfold take at h
  split at h
  · cases h
  · rename_i task rest hqueue
    split at h
    · obtain rfl := Option.some.inj h
      show (rest ++ (pool.running ++ [task])).Perm (pool.m_taskQueue ++ pool.running)
      rw [hqueue, ← List.append_assoc]
      exact List.perm_append_singleton task _
    · cases h

theorem tasks_ne_nil_of_take {pool pool' : ThreadPool α} (h : pool.take = some pool') : pool.tasks ≠
    [] := by
  intro hnil
  have hqueue := (List.append_eq_nil_iff.mp hnil).1
  unfold take at h
  split at h
  · cases h
  · rename_i task rest hcons
    rw [hqueue] at hcons
    cases hcons

theorem finish_tasks {i : Nat} {task : α} {pool pool' : ThreadPool α}
    (h : pool.finish i = some (task, pool')) :
    pool.tasks.Perm (task :: pool'.tasks) := by
  obtain ⟨t, ht, heq⟩ := Option.map_eq_some_iff.mp h
  obtain ⟨rfl, rfl⟩ := Prod.mk.inj heq
  obtain ⟨hi, rfl⟩ := List.getElem?_eq_some_iff.mp ht
  show (pool.m_taskQueue ++ pool.running).Perm
    (pool.running[i] :: (pool.m_taskQueue ++ pool.running.eraseIdx i))
  refine ((List.getElem_cons_eraseIdx_perm hi).symm.append_left _).trans ?_
  exact List.perm_middle

theorem take_length {pool pool' : ThreadPool α} (h : pool.take = some pool') :
    pool.m_taskQueue.length = pool'.m_taskQueue.length + 1 ∧
      pool'.running.length = pool.running.length + 1 := by
  unfold take at h
  split at h
  · cases h
  · rename_i task rest hqueue
    split at h
    · obtain rfl := Option.some.inj h
      exact ⟨congrArg List.length hqueue, List.length_append⟩
    · cases h

theorem finish_length {i : Nat} {task : α} {pool pool' : ThreadPool α}
    (h : pool.finish i = some (task, pool')) :
    pool'.m_taskQueue = pool.m_taskQueue ∧ pool.running.length = pool'.running.length + 1 := by
  obtain ⟨t, ht, heq⟩ := Option.map_eq_some_iff.mp h
  obtain ⟨rfl, rfl⟩ := Prod.mk.inj heq
  obtain ⟨hi, -⟩ := List.getElem?_eq_some_iff.mp ht
  refine ⟨rfl, ?_⟩
  show pool.running.length = (pool.running.eraseIdx i).length + 1
  rw [List.length_eraseIdx_of_lt hi]
  omega

/-- **The pool never waits with a task at hand.** -/
theorem take_or_finish {pool : ThreadPool α} (h : pool.tasks ≠ []) :
    (∃ pool', pool.take = some pool') ∨ ∃ i task pool', pool.finish i = some (task, pool') := by
  cases hrunning : pool.running with
  | cons task rest =>
    have hsome : (pool.finish 0).isSome := by simp [finish, hrunning]
    obtain ⟨⟨task, pool'⟩, hfinish⟩ := Option.isSome_iff_exists.mp hsome
    exact .inr ⟨0, task, pool', hfinish⟩
  | nil =>
    have hqueue : pool.m_taskQueue ≠ [] := by
      intro hnil
      exact h (by rw [tasks, hnil, hrunning]; rfl)
    have hthread : pool.running.length < pool.threads := by
      rw [hrunning]
      exact pool.served hqueue
    unfold take
    split
    · exact absurd ‹_› hqueue
    · rw [dif_pos hthread]
      exact .inl ⟨_, rfl⟩

end ThreadPool

end ThreadPool

end Lsp
