import Mathlib.Data.List.Chain
import LspFramework.Handler.Workers

/-!
# How many threads the pool has

`addTask` adds a thread when tasks queue up behind the new one's place, or when there is none at all; it does
not know which threads are busy.  So a task that finds the queue empty and every thread in a task gets no thread
of its own, and waits for one of those tasks to end although `m_maxThreads` allows another thread.

    Covered s ↔ min m_maxThreads unfinished ≤ threads
    (∀ s ∈ run, … → Covered s) ↔ run.IsChain (fun s s' => Submits s s' → HasThread s)        (enough_threads_iff)
-/

namespace Lsp.Workers

open State

namespace State

/-- The tasks that are queued or held by a worker. -/
def unfinished (s : State) : Nat := s.m_taskQueue.length + s.held.length

end State

/-- No task waits while a thread could still be created. -/
def Covered (s : State) : Prop := min s.m_maxThreads s.unfinished ≤ s.m_threads.length

instance (s : State) : Decidable (Covered s) := inferInstanceAs (Decidable (_ ≤ _))

/-- The section of a caller of `addTask`. -/
def Submits (s s' : State) : Prop :=
  ∃ task before after, s.callers = before ++ task :: after ∧ s.m_waitForNewTasks = true ∧
    s' = { s.addTask task with callers := before ++ after }

/-- A task that is queued now has a thread: one that holds no task, a new one, or no more are allowed. -/
def HasThread (s : State) : Prop :=
  s.m_threads = [] ∨ s.held.length < s.m_threads.length ∨ s.m_taskQueue ≠ [] ∨
    s.m_maxThreads ≤ s.m_threads.length

section ThreadCount

variable {initialThreads maxThreads : Nat} {s s' : State}

theorem held_length_le (s : State) : s.held.length ≤ s.m_threads.length := List.length_filterMap_le _ _

theorem covered_create : Covered (create initialThreads maxThreads) := by
  have hheld : (create initialThreads maxThreads).held = [] := by simp [create, held, Worker.task?]
  rw [Covered, unfinished, hheld]
  exact Nat.le_trans (Nat.min_le_right _ _) (Nat.zero_le _)

/-- The threads and the tasks behind a submission. -/
theorem addTask_counts (task : Task) (s : State) :
    (s.addTask task).unfinished = s.unfinished + 1 ∧ (s.addTask task).m_threads.length =
      if (s.m_taskQueue ≠ [] ∧ s.m_threads.length < s.m_maxThreads) ∨ s.m_threads = [] then
        s.m_threads.length + 1 else s.m_threads.length := by
  constructor
  · obtain ⟨hqueue, -⟩ := addTask_others task s
    rw [unfinished, addTask_held, hqueue, List.length_append, List.length_singleton, unfinished]
    omega
  · have hcond : (s.m_taskQueue ++ [task]).length > 1 ↔ s.m_taskQueue ≠ [] := by
      rw [List.length_append, List.length_singleton, ← List.length_pos_iff]
      omega
    unfold addTask
    simp only [hcond]
    split
    · exact List.length_append
    · rfl

/-- Without such a thread the task that comes is one too many. -/
theorem hasThread_of_addTask {task : Task} (hafter : Covered (s.addTask task)) : HasThread s := by
  obtain ⟨-, -, -, -, hmax, -⟩ := addTask_others task s
  obtain ⟨hunfinished, hthreads⟩ := addTask_counts task s
  have hheld := held_length_le s
  rw [Covered, hunfinished, hmax, unfinished] at hafter
  by_contra hnone
  obtain ⟨hsome, hbusy, hempty, hless⟩ : s.m_threads ≠ [] ∧ s.m_threads.length ≤ s.held.length ∧
      s.m_taskQueue = [] ∧ s.m_threads.length < s.m_maxThreads := by
    simpa only [HasThread, not_or, not_lt, not_le, ne_eq, not_not] using hnone
  rw [if_neg (by simp [hempty, hsome])] at hthreads
  omega

theorem covered_addTask (h : Inv initialThreads maxThreads s) (hcovered : Covered s) (hthread : HasThread s)
    (task : Task) : Covered (s.addTask task) := by
  obtain ⟨-, -, -, -, hmax, -⟩ := addTask_others task s
  obtain ⟨hunfinished, hthreads⟩ := addTask_counts task s
  have hheld := held_length_le s
  have hpos : 1 ≤ s.m_maxThreads := h.max ▸ Nat.le_max_right _ _
  have hqueue : s.m_taskQueue.length = 0 ↔ s.m_taskQueue = [] := List.length_eq_zero_iff
  have hnil : s.m_threads.length = 0 ↔ s.m_threads = [] := List.length_eq_zero_iff
  rw [Covered, unfinished] at hcovered
  rw [Covered, hunfinished, hmax, unfinished]
  by_cases hnew : (s.m_taskQueue ≠ [] ∧ s.m_threads.length < s.m_maxThreads) ∨ s.m_threads = []
  · rw [if_pos hnew] at hthreads
    rcases hnew with ⟨-, hless⟩ | hempty
    · omega
    · have hserved : s.m_taskQueue = [] := not_ne_iff.mp fun hne => h.served hne hempty
      rw [← hnil] at hempty
      rw [← hqueue] at hserved
      omega
  · obtain ⟨hqueued, hsome⟩ := not_or.mp hnew
    rw [if_neg hnew] at hthreads
    -- no thread is added: one is free, or there are enough
    rcases hthread with hempty | hfree | hne | hmany
    · exact absurd hempty hsome
    · by_cases hempty : s.m_taskQueue = []
      · rw [← hqueue] at hempty
        omega
      · have : s.m_maxThreads ≤ s.m_threads.length := Nat.le_of_not_lt fun hless => hqueued ⟨hempty, hless⟩
        omega
    · have : s.m_maxThreads ≤ s.m_threads.length := Nat.le_of_not_lt fun hless => hqueued ⟨hne, hless⟩
      omega
    · omega

/-- **What a submission does to a pool whose tasks all have their threads.** -/
theorem covered_addTask_iff (h : Inv initialThreads maxThreads s) (hcovered : Covered s) (task : Task) :
    Covered (s.addTask task) ↔ HasThread s :=
  ⟨hasThread_of_addTask, fun hthread => covered_addTask h hcovered hthread task⟩

theorem Covered.mono (h : Covered s) (hmax : s'.m_maxThreads = s.m_maxThreads)
    (hunfinished : s'.unfinished ≤ s.unfinished) (hthreads : s.m_threads.length ≤ s'.m_threads.length) :
    Covered s' := by
  rw [Covered] at h ⊢
  omega

/-- The tasks the workers hold are as many more or fewer as the one that changes holds. -/
theorem held_length_set {i : Nat} {w : Worker} (h : s.m_threads[i]? = some w) (w' : Worker) :
    ((s.m_threads.set i w').filterMap Worker.task?).length + w.task?.toList.length =
      s.held.length + w'.task?.toList.length := by
  obtain ⟨others, hold, hnew⟩ := held_set h w'
  rw [held, hold.length_eq, hnew.length_eq, List.length_append, List.length_append]
  omega

/-- The other steps make no task and take no thread from one. -/
theorem covered_step (h : Inv initialThreads maxThreads s) (hcovered : Covered s) (hstep : Step s s')
    (hother : ¬ Submits s s') : Covered s' := by
  cases hstep with
  | @addTask task before after hcallers hflag => exact absurd ⟨task, before, after, hcallers, hflag, rfl⟩ hother
  | @work _ i hfree hs =>
    obtain ⟨task, rest, hqueue, rfl⟩ | ⟨-, -, rfl⟩ := work_cases hs
    · let held' := (s.m_threads.set i (.holds task)).filterMap Worker.task?
      have hmore : held'.length = s.held.length + 1 := held_length_set hfree (.holds task)
      refine hcovered.mono rfl ?_ (Nat.le_of_eq List.length_set.symm)
      show rest.length + held'.length ≤ s.m_taskQueue.length + s.held.length
      rw [hqueue, List.length_cons]
      omega
    · have hsame : _ = s.held.length + 0 := held_length_set hfree .exited
      exact hcovered.mono rfl (Nat.add_le_add_left (Nat.le_of_eq hsame) _) (Nat.le_of_eq List.length_set.symm)
  | @execute i task hholds =>
    have hless : _ + 1 = s.held.length + 0 := held_length_set hholds .free
    refine hcovered.mono rfl (Nat.add_le_add_left ?_ _) (Nat.le_of_eq List.length_set.symm)
    exact Nat.le_of_succ_le (Nat.le_of_eq hless)
  | endWait hjoined =>
    have hnone : s.endWait.unfinished = s.m_taskQueue.length := rfl
    rw [Covered, hnone, (drained h hjoined).1]
    exact Nat.le_trans (Nat.min_le_right _ _) (Nat.zero_le _)
  | _ => exact hcovered

/-- A task is queued only while no wait is in progress. -/
theorem outside_of_submits (h : Inv initialThreads maxThreads s) (hsubmits : Submits s s') :
    s'.waiter = .outside := by
  obtain ⟨task, before, after, -, hflag, rfl⟩ := hsubmits
  obtain ⟨-, -, -, -, -, -, hwaiter, -⟩ := addTask_others task s
  exact hwaiter.trans (h.flag.mp hflag)

theorem covered_iff_of_submits (h : Inv initialThreads maxThreads s) (hcovered : Covered s)
    (hsubmits : Submits s s') : Covered s' ↔ HasThread s := by
  obtain ⟨task, before, after, -, -, rfl⟩ := hsubmits
  exact covered_addTask_iff h hcovered task

theorem covered_next (h : Inv initialThreads maxThreads s) (hcovered : Covered s) (hstep : Step s s')
    (hsubmitted : Submits s s' → Covered s') : Covered s' := by
  by_cases hsubmits : Submits s s'
  · exact hsubmitted hsubmits
  · exact covered_step h hcovered hstep hsubmits

theorem covered_run_iff {run : List State} (h : Inv initialThreads maxThreads s) (hcovered : Covered s)
    (hrun : (s :: run).IsChain Step) :
    (∀ t ∈ run, t.waiter = .outside → Covered t) ↔
      (s :: run).IsChain fun s s' => Submits s s' → HasThread s := by
  induction run generalizing s with
  | nil => exact iff_of_true nofun (.singleton _)
  | cons s' run ih =>
    obtain ⟨hstep, hrest⟩ := List.isChain_cons_cons.mp hrun
    have h' := inv_step h hstep
    rw [List.forall_mem_cons, List.isChain_cons_cons]
    constructor
    · rintro ⟨hnext, hall⟩
      have hsubmitted : Submits s s' → Covered s' := fun hsubmits => hnext (outside_of_submits h hsubmits)
      have hcovered' := covered_next h hcovered hstep hsubmitted
      refine ⟨fun hsubmits => ?_, (ih h' hcovered' hrest).mp hall⟩
      exact (covered_iff_of_submits h hcovered hsubmits).mp (hsubmitted hsubmits)
    · rintro ⟨hthread, hall⟩
      have hcovered' := covered_next h hcovered hstep fun hsubmits =>
        (covered_iff_of_submits h hcovered hsubmits).mpr (hthread hsubmits)
      exact ⟨fun _ => hcovered', (ih h' hcovered' hrest).mpr hall⟩

/-- **When a run keeps enough threads**: no task is queued while the queue is empty, every thread holds a task,
and another thread is allowed. -/
theorem enough_threads_iff {run : List State} (hrun : (create initialThreads maxThreads :: run).IsChain Step) :
    (∀ s ∈ run, s.waiter = .outside → Covered s) ↔
      (create initialThreads maxThreads :: run).IsChain fun s s' => Submits s s' → HasThread s :=
  covered_run_iff inv_create covered_create hrun

end ThreadCount

/-! ## Two tasks -/

/-- The first task is called for, queued, and taken by the thread made for it. -/
def firstTaken : List State :=
  let called : State := { create 0 2 with callers := [0], calls := 1 }
  let queued : State := { called.addTask 0 with callers := [] }
  [called, queued, { queued with m_taskQueue := [], taken := [0], m_threads := [.holds 0] }]

/-- The second task comes while the first is held. -/
def secondQueued : List State :=
  let busy : State := { m_maxThreads := 2, m_threads := [.holds 0], calls := 2, submitted := [0], taken := [0] }
  [{ busy with callers := [1] }, { busy.addTask 1 with callers := [] }]

theorem firstTaken_isChain : (create 0 2 :: firstTaken).IsChain Step := by
  refine .cons_cons .call (.cons_cons ?_ (.cons_cons ?_ (.singleton _)))
  · exact @Step.addTask _ 0 [] [] rfl rfl
  · exact .work (i := 0) rfl rfl

theorem twoTasks_isChain : (create 0 2 :: (firstTaken ++ secondQueued)).IsChain Step := by
  refine .cons_cons .call (.cons_cons ?_ (.cons_cons ?_ (.cons_cons .call (.cons_cons ?_ (.singleton _)))))
  · exact @Step.addTask _ 0 [] [] rfl rfl
  · exact .work (i := 0) rfl rfl
  · exact @Step.addTask _ 1 [] [] rfl rfl

/-- While there is one task, it has its thread. -/
theorem covered_firstTaken :
    firstTaken.map State.held = [[], [], [0]] ∧ ∀ s ∈ firstTaken, s.waiter = .outside → Covered s := by
  refine ⟨rfl, (enough_threads_iff firstTaken_isChain).mpr ?_⟩
  have hfree : ∀ s : State, s.held.length < s.m_threads.length ∨ s.m_threads = [] → HasThread s := by
    rintro s (hfree | hempty)
    · exact .inr (.inl hfree)
    · exact .inl hempty
  refine .cons_cons ?_ (.cons_cons ?_ (.cons_cons ?_ (.singleton _)))
  · exact fun _ => hfree _ (.inr rfl)
  · exact fun _ => hfree _ (.inr rfl)
  · exact fun _ => hfree _ (.inl (by decide))

/-- **The second task waits for the first**, with one thread where two are allowed. -/
theorem not_covered :
    (create 0 2 :: (firstTaken ++ secondQueued)).IsChain Step ∧
      ∃ s ∈ firstTaken ++ secondQueued, s.waiter = .outside ∧ ¬ Covered s ∧
        s.m_threads = [.holds 0] ∧ s.m_taskQueue = [1] ∧ s.m_maxThreads = 2 :=
  ⟨twoTasks_isChain, _, List.mem_append_right _ (.tail _ (.head _)), rfl, by decide, rfl, rfl, rfl⟩

end Lsp.Workers
